import CfKernel.Vfs.Invariant

/-!
# Runs of file requests

Every safe request keeps the invariant of the open files, so in every run of safe requests the open
files on one path agree, and a write through one of them is read back through all.
-/

namespace CfKernel.Vfs

open Lib Lib.Eff Fat

variable {sb : FatSuper} {d d' : Disk} {st t : VfsState} {f g : OpenFile} {s u : FatState}
variable {i j a b : Nat} {l l' m : List Nat} {slot : Nat → Prop} {own : List Nat → Prop}
variable {path : List UInt8}

theorem lt_of_file (hf : st.file i = some f) : i < st.files.length := by
  by_contra hge
  rw [VfsState.file, List.getElem?_eq_none (by omega)] at hf
  cases hf

/-- `t` is `st` after an operation on the vnode of file `i` that left the volume as in `u`. -/
structure AfterOp (st t : VfsState) (i : Nat) (f : OpenFile) (u : FatState) : Prop where
  disk : t.fat.disk = u.disk
  self : ∃ offset, t.file i = some { f with node := u.node, offset := offset }
  others : ∀ j, j ≠ i → t.file j = st.file j

theorem afterOp_onVnode {α : Type} {m : FatM α} (hf : st.file i = some f) :
    AfterOp st (onVnode i f m st).2 i f (m { st.fat with node := f.node }).2 where
  disk := rfl
  self := ⟨f.offset, by simp [onVnode, VfsState.file, lt_of_file hf]⟩
  others j hj := by simp [onVnode, VfsState.file, hj.symm]

theorem AfterOp.setOffset (h : AfterOp st t i f u) (offset : Nat) :
    AfterOp st (setOffset i offset t).2 i f u where
  disk := h.disk
  self := by
    obtain ⟨off, hself⟩ := h.self
    refine ⟨offset, ?_⟩
    have hget : t.files[i]? = some (some { f with node := u.node, offset := off }) := by
      rw [VfsState.file] at hself
      exact Option.join_eq_some_iff.mp hself
    simp [Vfs.setOffset, Eff.modify, VfsState.file, hget]
  others j hj := by
    rw [← h.others j hj]
    simp [Vfs.setOffset, Eff.modify, VfsState.file, hj.symm]

theorem fdGet_run (hf : st.file i = some f) : fdGet i st = (.ok f, st) := by
  simp only [fdGet, hf]

theorem fdGet_none (hf : st.file i = none) : fdGet i st = (.error .badFileDescriptor, st) := by
  simp only [fdGet, hf]

theorem AfterOp.transferDone (h : AfterOp st t i f u) (len done : Nat) (r : Except Errno Unit) :
    AfterOp st (vfsTransferDone i len f r done t).2 i f u ∧
      ((vfsTransferDone i len f r done t).1 = .ok () → r = .ok ()) := by
  unfold vfsTransferDone
  split_ifs with h1 h2
  · exact ⟨h, nofun⟩
  · exact ⟨h, nofun⟩
  · cases r with
    | error e => exact ⟨h, nofun⟩
    | ok v => exact ⟨h.setOffset _, fun _ => rfl⟩

theorem vfsTransfer_spec (hf : st.file i = some f) (len : Nat) (op : Nat → FatM Unit)
    {r : Except Errno Unit} (hop : op f.offset { st.fat with out := 0, node := f.node } = (r, u)) :
    AfterOp st (vfsTransfer i len op st).2 i f u ∧
      ((vfsTransfer i len op st).1 = .ok () → r = .ok ()) := by
  have hafter : AfterOp st (onVnode i f (op f.offset) { st with fat := { st.fat with out := 0 } }).2
      i f u := by
    have h := afterOp_onVnode (m := op f.offset)
      (show VfsState.file { st with fat := { st.fat with out := 0 } } i = some f from hf)
    rw [hop] at h
    exact ⟨h.disk, h.self, h.others⟩
  have hrun : vfsTransfer i len op st = vfsTransferDone i len f
      (op f.offset { st.fat with out := 0, node := f.node }).1
      (op f.offset { st.fat with out := 0, node := f.node }).2.out
      (onVnode i f (op f.offset) { st with fat := { st.fat with out := 0 } }).2 :=
    (bind_ok (fdGet_run hf)).trans rfl
  rw [hrun, hop]
  exact hafter.transferDone _ _ _

theorem Backed.slot_cases (hb : Backed sb d f) : f.node = fatRootNode sb ∨
    ∃ a, vnodeSlot f.node = some a ∧ sb.Finds d (fatRootNode sb) (components f.path) a := by
  rcases hb.cases with ⟨-, hroot⟩ | ⟨a, hfind, ⟨-, hnode⟩ | ⟨l, ho⟩⟩
  · exact .inl hroot
  · exact .inr ⟨a, by rw [hnode, vnodeSlot_nodeAt], hfind⟩
  · exact .inr ⟨a, ho.slot, hfind⟩

section Kept

variable (hb : Backed sb d f) (hk : sb.Kept d d' slot own)
  (hslot : ∀ a, vnodeSlot f.node = some a → slot a) (hown : ∀ a l, sb.Opened d f.node a l → own l)

include hb hk hslot hown

theorem Backed.kept : Backed sb d' f := by
  refine ⟨hb.noDots, ?_⟩
  rcases hb.cases with hroot | ⟨a, hfind, ⟨hdir, hnode⟩ | ⟨l, ho⟩⟩
  · exact .inl hroot
  · have ha := hslot a (by rw [hnode, vnodeSlot_nodeAt])
    obtain ⟨hlive, hdot⟩ := hfind.liveEntry hb.noDots
    refine .inr ⟨a, hk.finds _ _ a hfind hb.noDots ha, .inl ⟨hdir, ?_⟩⟩
    rw [(hk.entry a hlive hdot ha).2.2, hnode]
  · have ha := hslot a ho.slot
    exact .inr ⟨a, hk.finds _ _ a hfind hb.noDots ha,
      .inr ⟨l, hk.opened _ a l ho ha (hown a l ho)⟩⟩

theorem Backed.opened_back (ho : sb.Opened d' f.node a l) : sb.Opened d f.node a l := by
  rcases hb.isDir_or with hdir | ⟨b, m, -, ho'⟩
  · exact absurd (ho.isFile.symm.trans hdir) (by decide)
  · obtain ⟨rfl, rfl⟩ := ho.unique (hk.opened _ b m ho' (hslot b ho'.slot) (hown b m ho'))
    exact ho'

end Kept

theorem VfsInv.of_kept (h : VfsInv sb st) (hk : sb.Kept st.fat.disk t.fat.disk slot (fun _ => True))
    (hslot : ∀ i f a, st.file i = some f → vnodeSlot f.node = some a → slot a)
    (hfiles : ∀ i g, t.file i = some g →
      ∃ f, st.file i = some f ∧ g.path = f.path ∧ g.node = f.node) : VfsInv sb t where
  wf := hk.wf
  backed i g hg := by
    obtain ⟨f, hf, hpath, hnode⟩ := hfiles i g hg
    obtain ⟨hdots, hcases⟩ := (h.backed i f hf).kept hk (hslot i f · hf) fun _ _ _ => trivial
    rw [← hpath] at hdots
    rw [← hpath, ← hnode] at hcases
    exact ⟨hdots, hcases⟩
  apart i j g g' a b l m hg hg' ho ho' := by
    obtain ⟨f, hf, -, hnode⟩ := hfiles i g hg
    obtain ⟨f', hf', -, hnode'⟩ := hfiles j g' hg'
    rw [hnode] at ho
    rw [hnode'] at ho'
    exact h.apart i j f f' a b l m hf hf'
      ((h.backed i f hf).opened_back hk (hslot i f · hf) (fun _ _ _ => trivial) ho)
      ((h.backed j f' hf').opened_back hk (hslot j f' · hf') (fun _ _ _ => trivial) ho')

theorem VfsInv.same_disk (h : VfsInv sb st) (hd : t.fat.disk = st.fat.disk)
    (hfiles : ∀ i g, t.file i = some g →
      ∃ f, st.file i = some f ∧ g.path = f.path ∧ g.node = f.node) : VfsInv sb t := by
  have hk : sb.Kept st.fat.disk t.fat.disk (fun _ => True) (fun _ => True) := by
    rw [hd]
    exact .refl h.wf _ _
  exact h.of_kept hk (fun _ _ _ _ _ => trivial) hfiles

theorem Backed.of_leads {node : FatNode} (hwf : sb.WellFormed d)
    (hpath : NoDots path) (h : Leads sb d (fatRootNode sb) (components path) node) :
    Backed sb d ⟨path, node, 0⟩ := by
  refine ⟨hpath, ?_⟩
  rcases h with hroot | ⟨a, hfind, rfl⟩
  · exact .inl hroot
  · refine .inr ⟨a, hfind, ?_⟩
    by_cases hdir : (nodeAt d a).isDir = false
    · obtain ⟨hlive, hdot⟩ := hfind.liveEntry hpath
      obtain ⟨l, hat⟩ := FatSuper.attached_of_lookup (s := FatSuper.calling d (nodeAt d a)) hwf
        hlive hdot rfl hdir
      exact .inr ⟨l, hat.opened⟩
    · exact .inl ⟨by simpa using hdir, rfl⟩

theorem VfsInv.add (h : VfsInv sb st) {path : List UInt8} {node : FatNode} (hpath : NoDots path)
    (hlead : Leads sb st.fat.disk (fatRootNode sb) (components path) node) :
    VfsInv sb { st with files := st.files ++ [some ⟨path, node, 0⟩] } := by
  have hfile : ∀ i g, VfsState.file { st with files := st.files ++ [some ⟨path, node, 0⟩] } i =
      some g → st.file i = some g ∨ g = ⟨path, node, 0⟩ := by
    intro i g hg
    rw [VfsState.file, List.getElem?_append] at hg
    split_ifs at hg with hi
    · exact .inl hg
    · right
      cases hi : i - st.files.length with
      | zero => simpa [hi] using hg.symm
      | succ n => simp [hi] at hg
  -- the vnode of a lookup has its entry's chain, which other vnodes do not share
  have hnew : ∀ g b l m a, sb.Opened st.fat.disk node a l → sb.Opened st.fat.disk g b m → a ≠ b →
      ∀ x ∈ l, x ∉ m := by
    intro g b l m a ho ho' hne x hx hxm
    rcases hlead with ⟨-, hroot⟩ | ⟨a', hfind, hnode⟩
    · exact absurd (ho.isFile.symm.trans (by rw [hroot, FatSuper.fatRootNode_isDir])) (by decide)
    · obtain ⟨hlive, hdot⟩ := hfind.liveEntry hpath
      obtain rfl : a' = a := by
        have := ho.slot
        rw [hnode, vnodeSlot_nodeAt] at this
        exact Option.some.inj this
      refine ho'.attached.mine x hxm (some a') _ l (.entry hlive hdot) (by simpa using hne) ?_ hx
      have hch := ho.chain
      rwa [hnode] at hch
  refine ⟨h.wf, fun i g hg => ?_, fun i j f g a b l m hf hg ho ho' hne x hx hxm => ?_⟩
  · rcases hfile i g hg with hg | rfl
    · exact h.backed i g hg
    · exact .of_leads h.wf hpath hlead
  · rcases hfile i f hf with hf | rfl
    · rcases hfile j g hg with hg | rfl
      · exact h.apart i j f g a b l m hf hg ho ho' hne x hx hxm
      · exact hnew _ a m l b ho' ho hne.symm x hxm hx
    · exact hnew _ b l m a ho ho' hne x hx hxm

section Effect

variable (h : VfsInv sb st) (hf : st.file i = some f) (ho : sb.Opened st.fat.disk f.node a l)

include h ho

theorem VfsInv.node_eq (hg : st.file j = some g) (hslot : vnodeSlot g.node = some a)
    (hpos : 0 < f.node.size) : g.node = f.node := by
  have hnode := ho.node_eq hpos
  rcases (h.backed j g hg).cases with ⟨-, hroot⟩ | ⟨b, -, ⟨-, hgn⟩ | ⟨m, ho'⟩⟩
  · rw [hroot, vnodeSlot_root] at hslot
    cases hslot
  · rw [hgn, vnodeSlot_nodeAt] at hslot
    cases hslot
    rw [hgn, hnode]
  · rw [ho'.slot] at hslot
    cases hslot
    rw [ho'.node_eq (by rwa [ho'.size_eq, ← ho.size_eq]), hnode]

include hf

/-- A step through one of the open vnodes keeps the invariant, if the file has no other open
vnode or the step leaves chain and node as they are. -/
theorem VfsInv.effect (heff : sb.FileEffect s u a l l') (hs : s.disk = st.fat.disk)
    (hafter : AfterOp st t i f u)
    (hothers : Alone st i f ∨ (u.node = f.node ∧ 0 < f.node.size)) : VfsInv sb t := by
  obtain ⟨m₀, hch⟩ := heff.change
  rw [hs] at hch
  have hself := heff.attached.opened
  -- a file in `t` is on slot `a` with the node of the step, or as it was and on another slot
  have hcases : ∀ j g, t.file j = some g →
      (∃ f₀, st.file j = some f₀ ∧ vnodeSlot f₀.node = some a ∧ g.path = f₀.path ∧
        g.node = u.node) ∨ (st.file j = some g ∧ vnodeSlot g.node ≠ some a) := by
    intro j g hg
    by_cases hj : j = i
    · subst hj
      obtain ⟨offset, hi⟩ := hafter.self
      rw [hi] at hg
      cases hg
      exact .inl ⟨f, hf, ho.slot, rfl, rfl⟩
    · rw [hafter.others j hj] at hg
      by_cases hslot : vnodeSlot g.node = some a
      · rcases hothers with halone | ⟨hnode, hpos⟩
        · exact absurd (hslot.trans ho.slot.symm) (halone j g hg hj)
        · exact .inl ⟨g, hg, hslot, rfl, (h.node_eq ho hg hslot hpos).trans hnode.symm⟩
      · exact .inr ⟨hg, hslot⟩
  have hslot : ∀ {g : OpenFile}, vnodeSlot g.node ≠ some a →
      ∀ b, vnodeSlot g.node = some b → b ≠ a := by
    rintro g hne b hb rfl
    exact hne hb
  have hown : ∀ {j g}, st.file j = some g → vnodeSlot g.node ≠ some a →
      ∀ b m, sb.Opened st.fat.disk g.node b m → ∀ x ∈ m, x ∉ l := by
    intro j g hg hne b m ho' x hx
    exact h.apart j i g f b a m l hg hf ho' ho (hslot hne b ho'.slot) x hx
  have hback : ∀ {j g b m}, st.file j = some g → vnodeSlot g.node ≠ some a →
      sb.Opened u.disk g.node b m → sb.Opened st.fat.disk g.node b m := fun hg hne ho' =>
    (h.backed _ _ hg).opened_back hch.kept (hslot hne) (hown hg hne) ho'
  have hmeet : ∀ {j g b m}, st.file j = some g → vnodeSlot g.node ≠ some a →
      sb.Opened u.disk g.node b m → ∀ x ∈ l', x ∉ m := by
    intro j g b m hg hne ho' x hx hxm
    have hold := hback hg hne ho'
    rcases heff.step.owned x hx with hxl | hfree
    · exact hown hg hne b m hold x hxm hxl
    · rw [hs] at hfree
      exact hfree.not_mem hold.chain hxm
  refine ⟨?_, fun j g hg => ?_, fun j k g g' b c m m' hg hg' hm hm' hne x hx hxm => ?_⟩
  · rw [hafter.disk]
    exact heff.wellFormed
  · rw [hafter.disk]
    rcases hcases j g hg with ⟨f₀, hf₀, hsl, hpath, hnode⟩ | ⟨hg, hsl⟩
    · have hb := h.backed j f₀ hf₀
      refine ⟨hpath ▸ hb.noDots, .inr ⟨a, ?_, .inr ⟨l', by rw [hnode]; exact hself⟩⟩⟩
      rcases hb.slot_cases with hroot | ⟨b, hsl', hfind⟩
      · rw [hroot, vnodeSlot_root] at hsl
        cases hsl
      · rw [hsl] at hsl'
        cases hsl'
        rw [hpath]
        exact hch.shift.finds hfind hb.noDots fun _ _ hr _ => hch.othersSame.resolves hr
    · exact (h.backed j g hg).kept hch.kept (hslot hsl) (hown hg hsl)
  · rw [hafter.disk] at hm hm'
    rcases hcases j g hg with ⟨f₀, -, -, -, hnode⟩ | ⟨hg, hsl⟩
    · rw [hnode] at hm
      obtain ⟨rfl, rfl⟩ := hself.unique hm
      rcases hcases k g' hg' with ⟨f₁, -, -, -, hnode'⟩ | ⟨hg', hsl'⟩
      · rw [hnode'] at hm'
        exact hne (hself.unique hm').1
      · exact hmeet hg' hsl' hm' x hx hxm
    · rcases hcases k g' hg' with ⟨f₁, -, -, -, hnode'⟩ | ⟨hg', hsl'⟩
      · rw [hnode'] at hm'
        obtain ⟨rfl, rfl⟩ := hself.unique hm'
        exact hmeet hg hsl hm x hxm hx
      · exact h.apart j k g g' b c m m' hg hg' (hback hg hsl hm) (hback hg' hsl' hm') hne x hx hxm

end Effect

theorem AfterOp.sameFiles (h : AfterOp st t i f u) (hf : st.file i = some f)
    (hnode : u.node = f.node) (j : Nat) (g : OpenFile) (hg : t.file j = some g) :
    ∃ f', st.file j = some f' ∧ g.path = f'.path ∧ g.node = f'.node := by
  by_cases hj : j = i
  · subst hj
    obtain ⟨offset, hi⟩ := h.self
    rw [hi] at hg
    cases hg
    exact ⟨f, hf, rfl, hnode⟩
  · rw [h.others j hj] at hg
    exact ⟨g, hg, rfl, rfl⟩

theorem VfsInv.openFile (h : VfsInv sb st) {path : List UInt8} {create : Bool} (hpath : NoDots path)
    (hsafe : create = true → CreateSafe sb st.fat.disk path) :
    VfsInv sb (vfsOpen sb path create st).2 := by
  obtain ⟨r, u, hrun, hk, hr⟩ := vfsOpenVnode_spec h.wf hpath hsafe
  have hon : onFat (vfsOpenVnode sb path create) st = (r, { st with fat := u }) := by
    rw [onFat, hrun]
  have hinv : VfsInv sb { st with fat := u } :=
    h.of_kept (t := { st with fat := u }) hk (fun _ _ _ _ _ => trivial)
      fun i g hg => ⟨g, hg, rfl, rfl⟩
  cases r with
  | error e => rwa [vfsOpen, bind_error hon]
  | ok node =>
    rw [vfsOpen, bind_ok hon]
    exact hinv.add hpath (hr node rfl)

theorem VfsInv.close (h : VfsInv sb st) (i : Nat) : VfsInv sb (vfsClose i st).2 := by
  cases hf : st.file i with
  | none => rwa [vfsClose, bind_error (fdGet_none hf)]
  | some f =>
    rw [vfsClose, bind_ok (fdGet_run hf)]
    apply h.same_disk (t := { st with files := st.files.set i none }) rfl
    intro j g hg
    by_cases hj : i = j
    · subst hj
      simp [VfsState.file, lt_of_file hf] at hg
    · exact ⟨g, by simpa [VfsState.file, hj] using hg, rfl, rfl⟩

theorem VfsInv.seek (h : VfsInv sb st) (i off : Nat) : VfsInv sb (vfsGenericSeek i off st).2 := by
  cases hf : st.file i with
  | none => rwa [vfsGenericSeek, bind_error (fdGet_none hf)]
  | some f =>
    rw [vfsGenericSeek, bind_ok (fdGet_run hf)]
    have hafter : AfterOp st st i f { st.fat with node := f.node } := ⟨rfl, ⟨f.offset, hf⟩, by simp⟩
    exact h.same_disk (hafter.setOffset (u32 off)).disk ((hafter.setOffset (u32 off)).sameFiles hf rfl)

theorem fatReadVn_frame (sb : FatSuper) (off len : Nat) (s : FatState) :
    Post (fatReadVn sb off len) s fun _ t => t.disk = s.disk ∧ t.node = s.node := by
  refine Post.step (getNode_run s) ?_
  by_cases hdir : s.node.isDir = true
  · rw [if_pos hdir]
    exact ⟨rfl, rfl⟩
  rw [if_neg hdir]
  by_cases hnone : s.node.size ≤ off ∨ len = 0
  · rw [if_pos hnone]
    exact ⟨rfl, rfl⟩
  rw [if_neg hnone]
  generalize (if s.node.size - off < len then s.node.size - off else len) = n
  obtain ⟨mem, hm | hm⟩ := malloc_cases s
  · refine Post.step hm ?_
    apply Post.step
    · rfl
    apply Post.step
    · rfl
    split
    · exact ⟨rfl, rfl⟩
    · split <;> exact ⟨rfl, rfl⟩
  · rw [Post, bind_error hm]
    exact ⟨rfl, rfl⟩

section

variable (h : VfsInv sb st)
include h

theorem VfsInv.read (i len : Nat) : VfsInv sb (vfsGenericRead sb i len st).2 := by
  cases hf : st.file i with
  | none => rwa [vfsGenericRead, vfsTransfer, bind_error (fdGet_none hf)]
  | some f =>
    obtain ⟨hd, hn⟩ := fatReadVn_frame sb f.offset len { st.fat with out := 0, node := f.node }
    obtain ⟨hafter, -⟩ := vfsTransfer_spec hf len (fun off => fatReadVn sb off len) rfl
    exact h.same_disk (hafter.disk.trans hd) (hafter.sameFiles hf hn)

theorem VfsInv.write {buf : Bytes} {len : Nat}
    (hsafe : ∀ f, st.file i = some f →
      len = 0 ∨ f.offset + len ≤ f.node.size ∨ Alone st i f) :
    VfsInv sb (vfsGenericWrite sb i buf len st).2 := by
  cases hf : st.file i with
  | none => rwa [vfsGenericWrite, vfsTransfer, bind_error (fdGet_none hf)]
  | some f =>
    have hframe : ∀ {r u}, fatWriteVn sb buf f.offset len { st.fat with out := 0, node := f.node } =
        (r, u) → u.disk = st.fat.disk → u.node = f.node →
        VfsInv sb (vfsGenericWrite sb i buf len st).2 := by
      intro r u hrun hd hn
      obtain ⟨hafter, -⟩ := vfsTransfer_spec hf len (fun off => fatWriteVn sb buf off len) hrun
      exact h.same_disk (hafter.disk.trans hd) (hafter.sameFiles hf hn)
    rcases (h.backed i f hf).isDir_or with hdir | ⟨a, l, -, ho⟩
    · refine hframe (r := .error .invalidArgument)
        (u := { st.fat with out := 0, node := f.node }) ?_ rfl rfl
      rw [fatWriteVn, bind_ok (getNode_run _), if_pos hdir]
      rfl
    by_cases hlen : len = 0
    · refine hframe (r := .ok ()) (u := { st.fat with out := 0, node := f.node }) ?_ rfl rfl
      rw [fatWriteVn, bind_ok (getNode_run _), if_neg (by rw [ho.isFile]; decide),
        bind_ok (modify_run _ _), if_pos hlen]
      rfl
    · have hat : sb.Attached { st.fat with out := 0, node := f.node } a l := ho _ rfl rfl
      obtain ⟨r, u, l', hrun, heff, hin, -⟩ := hat.write h.wf buf f.offset len
      obtain ⟨hafter, -⟩ := vfsTransfer_spec hf len (fun off => fatWriteVn sb buf off len) hrun
      refine h.effect hf ho heff rfl hafter ?_
      rcases hsafe f hf with h0 | hle | halone
      · exact absurd h0 hlen
      · exact .inr ⟨(hin hle).2, by omega⟩
      · exact .inl halone

theorem VfsInv.ftruncate {length : Nat} (hsafe : ∀ f, st.file i = some f → Alone st i f) :
    VfsInv sb (sysFtruncate sb i length st).2 := by
  cases hf : st.file i with
  | none => rwa [sysFtruncate, bind_error (fdGet_none hf)]
  | some f =>
    rw [sysFtruncate, bind_ok (fdGet_run hf)]
    split_ifs with hneg
    · exact h
    have hafter := afterOp_onVnode (m := fatTruncateVn sb length) hf
    rcases (h.backed i f hf).isDir_or with hdir | ⟨a, l, -, ho⟩
    · have hrun : fatTruncateVn sb length { st.fat with node := f.node } =
          (.error .invalidArgument, { st.fat with node := f.node }) := by
        rw [fatTruncateVn, bind_ok (getNode_run _), if_pos (.inl hdir)]
        rfl
      rw [hrun] at hafter
      exact h.same_disk hafter.disk (hafter.sameFiles hf rfl)
    · have hat : sb.Attached { st.fat with node := f.node } a l := ho _ rfl rfl
      have hcs := sb.clusterSize_le
      obtain ⟨r, u, l', hrun, heff, -⟩ := hat.truncate h.wf length fun _ => by omega
      rw [hrun] at hafter
      exact h.effect hf ho heff rfl hafter (.inl (hsafe f hf))

theorem VfsInv.unlink (hpath : NoDots path)
    (hsafe : ∀ j g a, st.file j = some g →
      sb.Finds st.fat.disk (fatRootNode sb) (components path) a → vnodeSlot g.node ≠ some a) :
    VfsInv sb (onFat (vfsUnlink sb path) st).2 := by
  obtain ⟨r, u, hrun, hk⟩ := vfsUnlink_spec h.wf hpath
  have hon : (onFat (vfsUnlink sb path) st).2 = { st with fat := u } := by rw [onFat, hrun]
  rw [hon]
  exact h.of_kept (t := { st with fat := u }) hk
    (fun j g a hg hslot hfind => hsafe j g a hg hfind hslot) fun i g hg => ⟨g, hg, rfl, rfl⟩

theorem VfsInv.step {r : FileRequest} (hsafe : StepSafe sb r st) : VfsInv sb (r.step sb st) := by
  cases r with
  | openFile path create => exact h.openFile hsafe.1 hsafe.2
  | read i len => exact h.read i len
  | write i buf len => exact h.write hsafe
  | seek i off => exact h.seek i off
  | ftruncate i length => exact h.ftruncate hsafe
  | close i => exact h.close i
  | unlink path => exact h.unlink hsafe.1 hsafe.2

end

/-- A successful write of at least one byte through an open file is what every open file on the
same path reads back. -/
def WriteSeen (sb : FatSuper) (st : VfsState) : Prop :=
  ∀ i f buf len t, st.file i = some f → f.node.isDir = false → 0 < len →
    StepSafe sb (.write i buf len) st →
    (FileRequest.write i buf len).exec sb st = (.ok (), t) →
    ∃ c, sb.Observes st.fat.disk f.node c ∧ ∀ j g, t.file j = some g →
      components g.path = components f.path → sb.Observes t.fat.disk g.node
        (overwrite (zeroExtend c (max c.length (f.offset + len))) f.offset (bufferBytes buf len))

theorem VfsInv.writeSeen (h : VfsInv sb st) : WriteSeen sb st := by
  intro i f buf len t hf hfile hpos hsafe hrun
  obtain ⟨a, l, hfind, ho⟩ := (h.backed i f hf).isDir_or.resolve_left (by simp [hfile])
  obtain ⟨hlive, hdot⟩ := hfind.liveEntry (h.backed i f hf).noDots
  obtain ⟨k, hk⟩ := h.wf.chain _ _ (.entry hlive hdot)
  have hc : sb.Contents st.fat.disk a _ := ⟨k, hk, rfl⟩
  refine ⟨_, ho.observes hc, fun j g hg hpath => ?_⟩
  have hinv : VfsInv sb t := by
    have := h.step hsafe
    rwa [FileRequest.step, hrun] at this
  have hat : sb.Attached { st.fat with out := 0, node := f.node } a l := ho _ rfl rfl
  obtain ⟨r, u, hop⟩ : ∃ r u, fatWriteVn sb buf f.offset len
      { st.fat with out := 0, node := f.node } = (r, u) := ⟨_, _, rfl⟩
  have hspec := vfsTransfer_spec hf len (fun off => fatWriteVn sb buf off len) hop
  change vfsTransfer i len (fun off => fatWriteVn sb buf off len) st = _ at hrun
  rw [hrun] at hspec
  obtain ⟨hafter, hok⟩ := hspec
  cases hok rfl
  obtain ⟨⟨-, ⟨l', hat'⟩, hc', -⟩, -⟩ := hat.write_contents h.wf hc hop hpos
  obtain ⟨offset, hi⟩ := hafter.self
  have hnew := hat'.opened
  rw [← hafter.disk] at hnew hc'
  rcases (hinv.backed i _ hi).same (hinv.backed j g hg) hpath.symm with heq | ⟨b, l₁, m, hfo, hgo⟩
  · rw [← heq]
    exact hnew.observes hc'
  · obtain ⟨rfl, -⟩ := hfo.unique hnew
    exact hgo.observes hc'

/-- In every run of safe requests, from a well-formed volume with no open file, the open files on
one path agree, writes are seen through all of them, and different entries have no cluster in
common. -/
theorem reach_coherent {s₀ : FatState} (hwf : sb.WellFormed s₀.disk)
    (h : Reach (FileRequest.step sb) (StepSafe sb) ⟨s₀, []⟩ st) :
    Coherent sb st ∧ WriteSeen sb st := by
  have hinit : VfsInv sb ⟨s₀, []⟩ := ⟨hwf, nofun, nofun⟩
  have hinv := h.invariant (VfsInv sb) hinit fun _ _ hs hr => hs.step hr
  exact ⟨hinv.coherent, hinv.writeSeen⟩

def pathA : List UInt8 := [0x2F, 0x41]

theorem components_pathA : components pathA = [nameA] := by decide

theorem noDots_pathA : NoDots pathA := by
  intro name hname
  rw [components_pathA, List.mem_singleton] at hname
  subst hname
  decide

theorem createSafe_pathA : CreateSafe smallSuper blankDisk pathA := by
  intro names leaf dir hcomp _
  rw [components_pathA] at hcomp
  obtain ⟨rfl, hleaf⟩ : names = [] ∧ [nameA] = [leaf] := by
    cases names with
    | nil => exact ⟨rfl, hcomp⟩
    | cons n names => simp at hcomp
  cases hleaf
  exact ⟨by decide, fun _ => blankDisk_cleanDir _⟩

/-- The state after requests on the small empty volume. -/
def ranOn (reqs : List FileRequest) : VfsState :=
  reqs.foldl (fun st r => r.step smallSuper st) ⟨stateOn blankDisk, []⟩

/-- `/A` is created and written, opened a second time, and written within its size. -/
theorem twoFiles_agree : ∃ st f g, Reach (FileRequest.step smallSuper) (StepSafe smallSuper)
    ⟨stateOn blankDisk, []⟩ st ∧ st.file 0 = some f ∧ st.file 1 = some g ∧
    f.node.size = 3 ∧ g.node.size = f.node.size := by
  have h1 : StepSafe smallSuper (.openFile pathA true) (ranOn []) :=
    ⟨noDots_pathA, fun _ => createSafe_pathA⟩
  have h2 : StepSafe smallSuper (.write 0 (fun _ => 0x78) 3) (ranOn [.openFile pathA true]) := by
    refine fun f _ => .inr (.inr fun j g hg hj => ?_)
    have hlen : (ranOn [.openFile pathA true]).files.length = 1 := by decide +kernel
    have := lt_of_file hg
    omega
  have h3 : StepSafe smallSuper (.openFile pathA false)
      (ranOn [.openFile pathA true, .write 0 (fun _ => 0x78) 3]) := ⟨noDots_pathA, nofun⟩
  have h4 : StepSafe smallSuper (.write 1 (fun _ => 0x79) 2)
      (ranOn [.openFile pathA true, .write 0 (fun _ => 0x78) 3, .openFile pathA false]) := by
    refine fun f hf => .inr (.inl ?_)
    have hsize : Option.map (fun f => (f.offset, f.node.size)) (VfsState.file (ranOn
      [.openFile pathA true, .write 0 (fun _ => 0x78) 3, .openFile pathA false]) 1) =
        some (0, 3) := by decide +kernel
    rw [hf, Option.map_some, Option.some.injEq, Prod.mk.injEq] at hsize
    omega
  have hreach := (((Reach.start.step _ h1).step _ h2).step _ h3).step _ h4
  have hfirst : Option.map (fun f => (f.path, f.node.size)) (VfsState.file (ranOn
      [.openFile pathA true, .write 0 (fun _ => 0x78) 3, .openFile pathA false,
        .write 1 (fun _ => 0x79) 2]) 0) = some (pathA, 3) := by decide +kernel
  have hsecond : Option.map (fun f => f.path) (VfsState.file (ranOn
      [.openFile pathA true, .write 0 (fun _ => 0x78) 3, .openFile pathA false,
        .write 1 (fun _ => 0x79) 2]) 1) = some pathA := by decide +kernel
  obtain ⟨f, hf, hfp⟩ := Option.map_eq_some_iff.mp hfirst
  obtain ⟨g, hg, hgp⟩ := Option.map_eq_some_iff.mp hsecond
  rw [Prod.mk.injEq] at hfp
  refine ⟨_, f, g, hreach, hf, hg, hfp.2, ?_⟩
  exact (reach_coherent (smallSuper_wellFormed fun _ _ => rfl) hreach).1.size 1 0 g f hg hf
    (by rw [hgp, hfp.1])

/-- A write through one of two open files on `/A` that extends the file: the other one still has
its old size. -/
theorem twoFiles_extend_not_coherent : smallSuper.WellFormed (stateOn blankDisk).disk ∧
    ∃ st, Reach (FileRequest.step smallSuper) (fun _ _ => True) ⟨stateOn blankDisk, []⟩ st ∧
      ¬ Coherent smallSuper st := by
  have hreach : Reach (FileRequest.step smallSuper) (fun _ _ => True) ⟨stateOn blankDisk, []⟩
      (ranOn [.openFile pathA true, .openFile pathA false, .write 0 (fun _ => 0x78) 3]) :=
    ((Reach.start.step _ trivial).step _ trivial).step _ trivial
  refine ⟨smallSuper_wellFormed fun _ _ => rfl, _, hreach, fun hco => ?_⟩
  have hfirst : Option.map (fun f => (f.path, f.node.size)) (VfsState.file (ranOn
      [.openFile pathA true, .openFile pathA false, .write 0 (fun _ => 0x78) 3]) 0) =
        some (pathA, 3) := by decide +kernel
  have hsecond : Option.map (fun f => (f.path, f.node.size)) (VfsState.file (ranOn
      [.openFile pathA true, .openFile pathA false, .write 0 (fun _ => 0x78) 3]) 1) =
        some (pathA, 0) := by decide +kernel
  obtain ⟨f, hf, hfp⟩ := Option.map_eq_some_iff.mp hfirst
  obtain ⟨g, hg, hgp⟩ := Option.map_eq_some_iff.mp hsecond
  rw [Prod.mk.injEq] at hfp hgp
  have hsize := hco.size 0 1 f g hf hg (by rw [hfp.1, hgp.1])
  rw [hfp.2, hgp.2] at hsize
  cases hsize

end CfKernel.Vfs
