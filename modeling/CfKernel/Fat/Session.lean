import CfKernel.Fat.PreserveDir
import CfKernel.Lib.Run

/-!
# Requests on a mounted volume

A request walks a path from the root with `fat_lookup_vn`, perhaps creates the last component with
`fat_create_vn`, and applies one operation through the vnode it got. A request that fails on the
way has no further effect.
-/

namespace CfKernel.Fat

open Lib Lib.Eff

inductive VnodeOp where
  | write (buf : Bytes) (off len : Nat)
  | truncate (newSize : Nat)
  | create (name : List UInt8) (type : VnodeType)
  | unlink (name : List UInt8)

structure Request where
  path : List (List UInt8)
  make : Option (List UInt8 × VnodeType)
  op : VnodeOp

def walk (sb : FatSuper) : List (List UInt8) → FatNode → FatM FatNode
  | [], node => pure node
  | name :: rest, node => do
    let next ← fatLookupVn sb node name
    walk sb rest next

def makeLast (sb : FatSuper) (dir : FatNode) : Option (List UInt8 × VnodeType) → FatM FatNode
  | none => pure dir
  | some (name, type) => fatCreateVn sb dir name type

def VnodeOp.apply (sb : FatSuper) (node : FatNode) : VnodeOp → FatM Unit
  | .write buf off len => do
    modifyNode fun _ => node
    fatWriteVn sb buf off len
  | .truncate newSize => do
    modifyNode fun _ => node
    fatTruncateVn sb newSize
  | .create name type => do
    let _ ← fatCreateVn sb node name type
    pure ()
  | .unlink name => fatUnlinkVn sb node name

def Request.exec (sb : FatSuper) (r : Request) : FatM Unit := do
  let dir ← walk sb r.path (fatRootNode sb)
  let node ← makeLast sb dir r.make
  r.op.apply sb node

def Request.step (sb : FatSuper) (r : Request) (s : FatState) : FatState := (r.exec sb s).2

def VnodeOp.name : VnodeOp → Option (List UInt8)
  | .write _ _ _ => none
  | .truncate _ => none
  | .create name _ => some name
  | .unlink name => some name

def Request.NoDots (r : Request) : Prop :=
  (∀ name ∈ r.path, isDotName name = false) ∧ (∀ m ∈ r.make, isDotName m.1 = false) ∧
    ∀ name ∈ r.op.name, isDotName name = false

namespace FatSuper

variable (sb : FatSuper)

/-- No entry stands behind the end mark of the directory with first cluster `c`. -/
def CleanDir (d : Disk) (c : Nat) : Prop := ∀ slots, sb.DirSlots d c slots → CleanTail d slots

/-- A shrink whose rounding fits `u32`, and a creation in a clean directory. -/
def OpSafe (node : FatNode) (d : Disk) : VnodeOp → Prop
  | .write _ _ _ => True
  | .truncate newSize => newSize < node.size → newSize + sb.clusterSize - 1 < 2 ^ 32
  | .create _ _ => node.isDir = true → sb.CleanDir d node.firstCluster
  | .unlink _ => True

/-- The first operation that changes the volume is safe: the creation of the last component if
there is one, else the operation itself. -/
def RequestSafe (r : Request) (s : FatState) : Prop :=
  ∀ node t, walk sb r.path (fatRootNode sb) s = (.ok node, t) →
    match r.make with
    | none => sb.OpSafe node s.disk r.op
    | some (name, type) => sb.OpSafe node s.disk (.create name type)

/-- A vnode that a lookup returns now: the root, or the node of a live entry. -/
def Current (d : Disk) (node : FatNode) : Prop :=
  node = fatRootNode sb ∨ ∃ a, sb.LiveEntry d a ∧ entryIsDot d a = false ∧ node = nodeAt d a

variable {sb} {d : Disk} {node : FatNode} {s t : FatState} {name : List UInt8} {a : Nat}

theorem fatRootNode_isDir (sb : FatSuper) : (fatRootNode sb).isDir = true := by
  have hattr : (fatRootNode sb).attr = 0x10 := by
    unfold fatRootNode
    split_ifs
    · rfl
    · rfl
  rw [FatNode.isDir, hattr]
  decide

/-- In the directory `dir` the name is found in slot `a`. -/
def Resolves (sb : FatSuper) (d : Disk) (dir : FatNode) (name : List UInt8) (a : Nat) : Prop :=
  dir.isDir = true ∧ ∃ o slots, sb.LiveDir d o dir.firstCluster ∧
    sb.DirSlots d dir.firstCluster slots ∧
    (liveSlots d slots).find? (fun b => strcasecmpEq (entryName d b) name) = some a

/-- A current directory vnode stands for a live directory, or cannot be walked at all. -/
theorem Current.liveDir (h : sb.Current d node) (hwf : sb.WellFormed d) (hdir : node.isDir = true) :
    (∃ o slots, sb.LiveDir d o node.firstCluster ∧ sb.DirSlots d node.firstCluster slots) ∨
      (sb.type = .fat32 ∧ node.firstCluster = 0) := by
  have hlive : ∀ {o c}, sb.LiveDir d o c → c = node.firstCluster →
      ∃ o slots, sb.LiveDir d o node.firstCluster ∧ sb.DirSlots d node.firstCluster slots := by
    rintro o c hd rfl
    obtain ⟨slots, hs⟩ := hwf.dirSlots hd
    exact ⟨o, slots, hd, hs⟩
  rcases h with rfl | ⟨a, ha, hdot, rfl⟩
  · exact .inl (hlive .root rfl)
  · by_cases hc : entryCluster d a = 0
    · by_cases ht : sb.type = .fat32
      · exact .inr ⟨ht, hc⟩
      · -- on FAT12 and FAT16 cluster zero is the root
        refine .inl (hlive .root ?_)
        rw [fatRootNode, if_neg ht]
        exact hc.symm
    · obtain ⟨o, c, slots, hd, hs, hmem⟩ := ha
      exact .inl (hlive (.sub hd hs hmem hdir hdot hc) rfl)

theorem Resolves.liveEntry (h : sb.Resolves d node name a)
    (hname : isDotName name = false) : sb.LiveEntry d a ∧ entryIsDot d a = false := by
  obtain ⟨-, o, slots, hd, hs, hf⟩ := h
  have hcmp := List.find?_some (p := fun b => strcasecmpEq (entryName d b) name) hf
  refine ⟨⟨o, _, slots, hd, hs, List.mem_of_find?_eq_some hf⟩, ?_⟩
  rw [entryIsDot, isDotName_of_strcasecmpEq hcmp, hname]

theorem Resolves.current (h : sb.Resolves d node name a)
    (hname : isDotName name = false) : sb.Current d (nodeAt d a) :=
  .inr ⟨a, (h.liveEntry hname).1, (h.liveEntry hname).2, rfl⟩

theorem fatLookupVn_empty (name : List UInt8) (ht : sb.type = .fat32)
    (hc : node.firstCluster = 0) (hdir : ¬ node.isDir = false) :
    ∃ e mem, fatLookupVn sb node name s = (.error e, { s with mem := mem }) ∧
      e ≠ .notFound ∧ e ≠ .noSpaceLeft := by
  obtain ⟨e, mem, hit, hne⟩ := fatIterDir_empty (s := s) (fatLookupCb name) none ht hc
  exact ⟨e, mem, by rw [fatLookupVn, if_neg hdir, bind_error hit], hne⟩

theorem Current.lookup (h : sb.Current s.disk node) (hwf : sb.WellFormed s.disk)
    (name : List UInt8) : ∃ r mem, fatLookupVn sb node name s = (r, { s with mem := mem }) ∧
      ∀ next, r = .ok next → ∃ a, sb.Resolves s.disk node name a ∧ next = nodeAt s.disk a := by
  by_cases hdir : node.isDir = false
  · exact ⟨.error .invalidArgument, s.mem, by rw [fatLookupVn, if_pos hdir]; rfl, by simp⟩
  have hdir' : node.isDir = true := by simpa using hdir
  rcases h.liveDir hwf hdir' with ⟨o, slots, hd, hs⟩ | ⟨ht, hc⟩
  · obtain ⟨mem, ⟨a, ha, hrun⟩ | ⟨-, hrun⟩ | hrun⟩ := fatLookupVn_spec name hdir' hs
    · refine ⟨_, mem, hrun, ?_⟩
      rintro _ ⟨⟩
      exact ⟨a, ⟨hdir', o, slots, hd, hs, ha⟩, rfl⟩
    · exact ⟨_, mem, hrun, by simp⟩
    · exact ⟨_, mem, hrun, by simp⟩
  · obtain ⟨e, mem, hrun, -⟩ := fatLookupVn_empty (s := s) name ht hc hdir
    exact ⟨_, mem, hrun, by simp⟩

theorem Current.walk {path : List (List UInt8)} (h : sb.Current s.disk node)
    (hwf : sb.WellFormed s.disk) (hpath : ∀ name ∈ path, isDotName name = false) :
    ∃ r mem, walk sb path node s = (r, { s with mem := mem }) ∧
      ∀ next, r = .ok next → sb.Current s.disk next := by
  induction path generalizing node s with
  | nil =>
    refine ⟨.ok node, s.mem, rfl, ?_⟩
    rintro _ ⟨⟩
    exact h
  | cons name path ih =>
    obtain ⟨r, mem, hrun, hr⟩ := h.lookup hwf name
    cases r with
    | ok next =>
      obtain ⟨a, ha, rfl⟩ := hr next rfl
      obtain ⟨r', mem', hrun', hr'⟩ := ih (s := { s with mem := mem })
        (ha.current (hpath name (by simp))) hwf fun n hn => hpath n (by simp [hn])
      exact ⟨r', mem', by rw [Fat.walk, bind_ok hrun, hrun'], hr'⟩
    | error e => exact ⟨.error e, mem, by rw [Fat.walk, bind_error hrun], by simp⟩

/-- Where the search for the name fails for another reason than its absence, nothing is made. -/
theorem fatCreateVn_of_lookup {e : Errno} (type : VnodeType)
    (h : fatLookupVn sb node name s = (.error e, t)) (he : e ≠ .notFound) :
    ∃ e', fatCreateVn sb node name type s = (.error e', s) ∧ e' ≠ .noSpaceLeft ∨
      fatCreateVn sb node name type s = (.error e, t) := by
  by_cases hbad : node.isDir = false ∨ (type ≠ .file ∧ type ≠ .dir)
  · exact ⟨.invalidArgument, .inl ⟨by rw [fatCreateVn, if_pos hbad]; rfl, by decide⟩⟩
  rw [fatCreateVn, if_neg hbad]
  cases hsn : fatMakeShortName name with
  | error e' =>
    refine ⟨e', .inl ⟨bind_error rfl, ?_⟩⟩
    rintro rfl
    exact fatMakeShortName_ne name hsn
  | ok sn =>
    refine ⟨e, .inr ((bind_ok (a := sn) (t := s) rfl).trans ?_)⟩
    rw [bind_ok (attempt_run h)]
    dsimp only
    rw [if_pos he]
    rfl

section

variable (h : sb.Current s.disk node)
include h

/-- What `fat_create_vn` does in a clean directory: it finds a slot, and then adds the entry or
leaves a mark in a free cluster only. -/
theorem Current.create_spec (hwf : sb.WellFormed s.disk)
    (hclean : node.isDir = true → sb.CleanDir s.disk node.firstCluster) (name : List UInt8)
    (type : VnodeType) :
    ∃ r t, fatCreateVn sb node name type s = (r, t) ∧
      match r with
      | .ok next => ∃ o d₁ slots a sn x, node.isDir = true ∧
          sb.SlotReady s.disk d₁ o node.firstCluster ∧
          sb.LiveDir d₁ o node.firstCluster ∧ sb.DirSlots d₁ node.firstCluster slots ∧
          sb.NewEntry d₁ t.disk o slots a sn x (createAttr type) ∧ fatMakeShortName name = .ok sn ∧
          (liveSlots d₁ slots).find? (fun b => strcasecmpEq (entryName d₁ b) name) = none ∧
          next = newNode a x (createAttr type)
      | .error _ => t.disk = s.disk ∨ ∃ o d₁, sb.SlotReady s.disk d₁ o node.firstCluster ∧
          sb.WellFormed d₁ ∧ (t.disk = d₁ ∨ ∃ x, sb.Scribbled d₁ t.disk x) := by
  by_cases hdir : node.isDir = false
  · exact ⟨.error .invalidArgument, s, by rw [fatCreateVn, if_pos (.inl hdir)]; rfl, .inl rfl⟩
  have hdir' : node.isDir = true := by simpa using hdir
  rcases h.liveDir hwf hdir' with ⟨o, slots, hd, hs⟩ | ⟨ht, hc⟩
  · obtain ⟨r, t, hrun, -, hr⟩ := fatCreateVn_spec name type hs
    refine ⟨r, t, hrun, ?_⟩
    have hct := hclean hdir' slots hs
    cases r with
    | ok next =>
      obtain ⟨d₁, a, sn, x, htk, hsn, hnone, hkind, rfl, hadd⟩ := hr
      obtain ⟨hready, slots₁, hs₁, hfirst, hct₁⟩ := htk.taken hd hs hct
      obtain ⟨hwf₁, hd₁, slots₂, hs₂, hlive, hsame⟩ := hready.dirSlots hwf hd hs
      cases hs₁.unique hs₂
      refine ⟨o, d₁, slots₁, a, sn, x, hdir', hready, hd₁, hs₁, ?_, hsn, ?_, rfl⟩
      · refine ⟨hwf₁, ⟨_, hd₁, hs₁⟩, hfirst, hct₁, ⟨name, hsn⟩, ⟨_, hadd⟩, ?_⟩
        rcases hkind with ⟨rfl, hx⟩ | ⟨rfl, hx⟩
        · exact .inr ⟨rfl, hx⟩
        · exact .inl ⟨rfl, hx⟩
      · rw [hlive, find?_name_congr fun b hb => (hsame b hb).2, hnone]
    | error e =>
      rcases hr with ⟨hsame, -⟩ | ⟨d₁, a, htk, hr⟩
      · exact .inl hsame
      · have hready := (htk.taken hd hs hct).1
        refine .inr ⟨o, d₁, hready, (hready.dirSlots hwf hd hs).1, ?_⟩
        rcases hr with ⟨hsame, -⟩ | ⟨hscr, -⟩
        · exact .inl hsame
        · exact .inr hscr
  · obtain ⟨e, mem, hrun, he, -⟩ := fatLookupVn_empty (s := s) name ht hc hdir
    obtain ⟨e', ⟨hcr, -⟩ | hcr⟩ := fatCreateVn_of_lookup type hrun he
    · exact ⟨_, _, hcr, .inl rfl⟩
    · exact ⟨_, _, hcr, .inl rfl⟩

/-- `fat_create_vn` in a clean directory keeps the volume well formed and returns a current
vnode, of an empty file or a clean directory. -/
theorem Current.create (hwf : sb.WellFormed s.disk)
    (hclean : node.isDir = true → sb.CleanDir s.disk node.firstCluster) (name : List UInt8)
    (type : VnodeType) :
    ∃ r t, fatCreateVn sb node name type s = (r, t) ∧ sb.WellFormed t.disk ∧
      ∀ next, r = .ok next → sb.Current t.disk next ∧ ∀ op, sb.OpSafe next t.disk op := by
  obtain ⟨r, t, hrun, hr⟩ := h.create_spec hwf hclean name type
  refine ⟨r, t, hrun, ?_⟩
  cases r with
  | ok next =>
    obtain ⟨o, d₁, slots, a, sn, x, -, -, -, -, hnew, -, -, rfl⟩ := hr
    refine ⟨hnew.wellFormed, ?_⟩
    rintro _ ⟨⟩
    refine ⟨.inr ⟨a, hnew.liveEntry_new, hnew.filled.notDot, hnew.filled.node_eq.symm⟩, fun op => ?_⟩
    cases op with
    | write _ _ _ => trivial
    | truncate newSize => exact fun hlt => absurd hlt (Nat.not_lt_zero _)
    | create _ _ =>
      intro hisDir slots' hs'
      rcases hnew.kind with ⟨-, hx⟩ | ⟨hattr, -⟩
      · exact hnew.filled.cleanTail_new hx hs'
      · rw [hattr, newNode_isDir] at hisDir
        exact absurd hisDir (by decide)
    | unlink _ => trivial
  | error e =>
    refine ⟨?_, by simp⟩
    rcases hr with hsame | ⟨o, d₁, -, hwf₁, rfl | ⟨x, hscr⟩⟩
    · rw [hsame]
      exact hwf
    · exact hwf₁
    · exact hscr.wellFormed hwf₁

theorem Current.unlink_spec (hwf : sb.WellFormed s.disk) (hname : isDotName name = false) :
    ∃ r t, fatUnlinkVn sb node name s = (r, t) ∧ (t.disk = s.disk ∨
      ∃ a l, sb.Resolves s.disk node name a ∧ sb.Unlinked s.disk t.disk a l ∧
        (entryIsDir s.disk a = true → sb.EmptyDir s.disk (entryCluster s.disk a))) := by
  by_cases hdir : node.isDir = false
  · exact ⟨.error .invalidArgument, s, by rw [fatUnlinkVn, if_pos hdir]; rfl, .inl rfl⟩
  have hdir' : node.isDir = true := by simpa using hdir
  rcases h.liveDir hwf hdir' with ⟨o, slots, hd, hs⟩ | ⟨ht, hc⟩
  · have hdot : ∀ {a}, strcasecmpEq (entryName s.disk a) name = true →
        entryIsDot s.disk a = false := fun hcmp => by
      rw [entryIsDot, isDotName_of_strcasecmpEq hcmp, hname]
    obtain ⟨r, t, hrun, -, hr⟩ := fatUnlinkVn_spec name hs fun a ha hcmp =>
      hwf.chain _ _ (.entry ⟨o, _, slots, hd, hs, ha⟩ (hdot hcmp))
    refine ⟨r, t, hrun, ?_⟩
    cases r with
    | ok u =>
      obtain ⟨a, l, ha, hl, hempty, hrem⟩ := hr
      have hres : sb.Resolves s.disk node name a := ⟨hdir', o, slots, hd, hs, ha⟩
      obtain ⟨hlive, hndot⟩ := hres.liveEntry hname
      exact .inr ⟨a, l, hres, ⟨hwf, hlive, hndot, hl, hrem⟩, hempty⟩
    | error e => exact .inl hr
  · obtain ⟨e, mem, hrun, -⟩ := fatLookupVn_empty (s := s) name ht hc hdir
    exact ⟨.error e, { s with mem := mem }, by rw [fatUnlinkVn, if_neg hdir, bind_error hrun],
      .inl rfl⟩

theorem Current.unlink (hwf : sb.WellFormed s.disk) (hname : isDotName name = false) :
    ∃ r t, fatUnlinkVn sb node name s = (r, t) ∧ sb.WellFormed t.disk := by
  obtain ⟨r, t, hrun, hsame | ⟨a, l, -, hun, -⟩⟩ := h.unlink_spec hwf hname
  · exact ⟨r, t, hrun, by rwa [hsame]⟩
  · exact ⟨r, t, hrun, hun.wellFormed⟩

end

section

variable (h : sb.Current s.disk s.node)
include h

theorem Current.attached (hwf : sb.WellFormed s.disk)
    (hfile : s.node.isDir = false) : ∃ a l, sb.Attached s a l := by
  rcases h with h | ⟨a, ha, hdot, hnode⟩
  · rw [h, fatRootNode_isDir] at hfile
    cases hfile
  · exact ⟨a, attached_of_lookup hwf ha hdot hnode hfile⟩

theorem Current.write (hwf : sb.WellFormed s.disk) (buf : Bytes)
    (off len : Nat) : sb.WellFormed (fatWriteVn sb buf off len s).2.disk := by
  by_cases hfile : s.node.isDir = false
  · obtain ⟨a, l, hat⟩ := h.attached hwf hfile
    obtain ⟨r, t, l', hrun, heff, -⟩ := hat.write hwf buf off len
    rw [hrun]
    exact heff.wellFormed
  · rw [fatWriteVn, bind_ok (getNode_run s), if_pos (by simpa using hfile)]
    exact hwf

theorem Current.truncate (hwf : sb.WellFormed s.disk)
    (newSize : Nat) (hw : newSize < s.node.size → newSize + sb.clusterSize - 1 < 2 ^ 32) :
    sb.WellFormed (fatTruncateVn sb newSize s).2.disk := by
  by_cases hfile : s.node.isDir = false
  · obtain ⟨a, l, hat⟩ := h.attached hwf hfile
    obtain ⟨r, t, l', hrun, heff, -⟩ := hat.truncate hwf newSize hw
    rw [hrun]
    exact heff.wellFormed
  · rw [fatTruncateVn, bind_ok (getNode_run s), if_pos (.inl (by simpa using hfile))]
    exact hwf

end

theorem Current.apply {op : VnodeOp} (h : sb.Current s.disk node) (hwf : sb.WellFormed s.disk)
    (hname : ∀ name ∈ op.name, isDotName name = false) (hsafe : sb.OpSafe node s.disk op) :
    sb.WellFormed (op.apply sb node s).2.disk := by
  cases op with
  | write buf off len =>
    rw [VnodeOp.apply, bind_ok (modifyNode_run _ s)]
    exact Current.write (s := { s with node := node }) h hwf buf off len
  | truncate newSize =>
    rw [VnodeOp.apply, bind_ok (modifyNode_run _ s)]
    exact Current.truncate (s := { s with node := node }) h hwf newSize hsafe
  | create name type =>
    obtain ⟨r, t, hrun, hwf', -⟩ := h.create hwf hsafe name type
    cases r with
    | ok next =>
      rw [VnodeOp.apply, bind_ok hrun]
      exact hwf'
    | error e =>
      rw [VnodeOp.apply, bind_error hrun]
      exact hwf'
  | unlink name =>
    obtain ⟨r, t, hrun, hwf'⟩ := h.unlink hwf (hname name rfl)
    rw [VnodeOp.apply, hrun]
    exact hwf'

theorem WellFormed.request (hwf : sb.WellFormed s.disk) {r : Request} (hdots : r.NoDots)
    (hsafe : sb.RequestSafe r s) : sb.WellFormed (r.step sb s).disk := by
  obtain ⟨hpath, -, hop⟩ := hdots
  obtain ⟨w, mem, hwalk, hcur⟩ := Current.walk (.inl rfl) hwf hpath
  rw [Request.step, Request.exec]
  cases w with
  | error e =>
    rw [bind_error hwalk]
    exact hwf
  | ok dir =>
    have hsafe' := hsafe dir _ hwalk
    rw [bind_ok hwalk]
    have hmade : ∃ m t, makeLast sb dir r.make { s with mem := mem } = (m, t) ∧
        sb.WellFormed t.disk ∧
        ∀ node, m = .ok node → sb.Current t.disk node ∧ sb.OpSafe node t.disk r.op := by
      cases hm : r.make with
      | none =>
        rw [hm] at hsafe'
        refine ⟨.ok dir, { s with mem := mem }, rfl, hwf, ?_⟩
        rintro _ ⟨⟩
        exact ⟨hcur dir rfl, hsafe'⟩
      | some p =>
        rw [hm] at hsafe'
        obtain ⟨m, t, hrun, hwf', hnext⟩ :=
          Current.create (s := { s with mem := mem }) (hcur dir rfl) hwf hsafe' p.1 p.2
        exact ⟨m, t, hrun, hwf', fun node hnode => ⟨(hnext node hnode).1, (hnext node hnode).2 _⟩⟩
    obtain ⟨m, t, hmk, hwf', hcur'⟩ := hmade
    cases m with
    | error e =>
      rw [bind_error hmk]
      exact hwf'
    | ok node =>
      rw [bind_ok hmk]
      obtain ⟨hnode, hopsafe⟩ := hcur' node rfl
      exact hnode.apply hwf' hop hopsafe

end FatSuper

end CfKernel.Fat
