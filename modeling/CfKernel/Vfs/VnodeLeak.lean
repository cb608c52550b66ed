import CfKernel.Fat.Probe
import CfKernel.Vfs.FatVnodes

/-!
# Vnodes of a FAT root over system calls

The system calls that walk paths, and those that open and close files. A vnode that a walk is given
holds one reference that nobody gives back, so it outlives every file. The vnodes of a run are all
destroyed exactly when no walk of it finds a first component and none of its calls creates.
-/

namespace CfKernel.Vfs.Counted

open Lib Lib.Eff Fat Function

section Code

variable (sb : FatSuper)

def fileRef (f : Nat) : WorldM Unit := files.store f fun x => { x with refcount := x.refcount + 1 }

def fileUnref (f : Nat) : WorldM Unit := do
  let x ← files.load f
  if x.refcount ≤ 1 then vfsClose f
  else files.store f fun x => { x with refcount := x.refcount - 1 }

def resolved (a : Fd.PathArg) : WorldM (List UInt8) := Eff.read fun _ => a.resolve.mapError .code

/-- `SYS_open` with the file: `fd_alloc` takes a reference if the table has room, and the caller's
goes. -/
def installOpened (installed : Bool) (f : Nat) : WorldM Unit :=
  if installed then do
    fileRef f
    fileUnref f
  else do
    fileUnref f
    failWith .tooManyOpenFiles

def sysOpen (a : Fd.PathArg) (create installed : Bool) : WorldM Unit := do
  let path ← resolved a
  let f ← vfsOpen sb path create
  installOpened installed f

/-- `SYS_stat`; `valid` is the test of the user's buffer. -/
def sysStat (a : Fd.PathArg) (valid : Bool) : WorldM Unit := do
  let path ← resolved a
  if valid = false then failWith .badAddress
  else do
    let _ ← vfsLookup sb path

def sysChdir (a : Fd.PathArg) : WorldM Unit := do
  let path ← resolved a
  let directory ← vfsLookup sb path
  let d ← vnodes.load directory
  if d.node.isDir = false then failWith .notDirectory else pure ()

def sysMkdir (a : Fd.PathArg) : WorldM Unit := do
  let path ← resolved a
  vfsMkdir sb path

/-- What the call refuses by the type of its target. -/
def refuses : Fd.RemoveCall → FatNode → Option Errno
  | .rmdir, node => if node.isDir = false then some .notDirectory else none
  | .unlink, node => if node.isDir = true then some .isDirectory else none

def sysRemove (call : Fd.RemoveCall) (a : Fd.PathArg) : WorldM Unit := do
  let path ← resolved a
  let target ← vfsLookup sb path
  let t ← vnodes.load target
  match refuses call t.node with
  | some e => failWith e
  | none => vfsUnlink sb path

/-- `read_fully` as far as it concerns vnodes and files, with the allocations it meets. -/
def readFully (vn : Nat) (mem : Nat → Bool) : WorldM Unit := do
  Eff.modify fun w => { w with fat := { w.fat with mem } }
  let f ← vfsOpenVnode vn
  vfsClose f

/-- `exec_elf_vnode_args` reads the image piece by piece. -/
def execReads (vn : Nat) : List (Nat → Bool) → WorldM Unit
  | [] => pure ()
  | mem :: rest => do
    readFully vn mem
    execReads vn rest

/-- `SYS_execve`; `args` is what copying the arguments gives. -/
def sysExec (a : Fd.PathArg) (args : Except Errno Unit) (reads : List (Nat → Bool)) :
    WorldM Unit := do
  Eff.read fun _ => args.mapError .code
  let path ← resolved a
  let vn ← vfsLookup sb path
  execReads vn reads

inductive PathCall where
  | openPath (a : Fd.PathArg) (create installed : Bool)
  | close (f : Nat)
  | dup (f : Nat)
  | stat (a : Fd.PathArg) (valid : Bool)
  | chdir (a : Fd.PathArg)
  | mkdir (a : Fd.PathArg)
  | remove (call : Fd.RemoveCall) (a : Fd.PathArg)
  | exec (a : Fd.PathArg) (args : Except Errno Unit) (reads : List (Nat → Bool))

def PathCall.exe : PathCall → WorldM Unit
  | .openPath a create installed => sysOpen sb a create installed
  | .close f => fileUnref f
  | .dup f => fileRef f
  | .stat a valid => sysStat sb a valid
  | .chdir a => sysChdir sb a
  | .mkdir a => sysMkdir sb a
  | .remove call a => sysRemove sb call a
  | .exec a args reads => sysExec sb a args reads

/-- A call with the allocations it meets. -/
structure Request where
  mem : Nat → Bool
  call : PathCall

def Request.begin (r : Request) (w : World) : World := { w with fat := { w.fat with mem := r.mem } }

def Request.step (r : Request) (w : World) : World := (r.call.exe sb (r.begin w)).2

def run : List Request → World → World
  | [], w => w
  | r :: rs, w => run rs (r.step sb w)

end Code

variable {sb : FatSuper} {w w' w'' : World} {p q : Prop} {α β : Type} {m : WorldM α}
variable {h : Heap FatVnode} {node : FatNode}

/-- Every vnode has a reference beyond those of its files. -/
structure Sound (sb : FatSuper) (w : World) : Prop where
  rooted : Rooted sb w
  counted : ∀ a x, w.vnodes.cell a = some x → w.files.count (fun f => decide (f.vn = a)) < x.refcnt
  held : ∀ f x, w.files.cell f = some x → 0 < x.refcount ∧ (w.vnodes.cell x.vn).isSome = true

/-- No vnode there was is gone, and `handed` says whether there is a new one. -/
structure Leaves (sb : FatSuper) (w w' : World) (handed : Prop) : Prop where
  sound : Sound sb w'
  next_le : w.vnodes.next ≤ w'.vnodes.next
  old : ∀ a < w.vnodes.next, (w'.vnodes.cell a).isSome = (w.vnodes.cell a).isSome
  handed : (∃ a, w.vnodes.next ≤ a ∧ (w'.vnodes.cell a).isSome = true) ↔ handed

theorem Leaves.congr (h : Leaves sb w w' p) (hpq : p ↔ q) : Leaves sb w w' q :=
  ⟨h.sound, h.next_le, h.old, h.handed.trans hpq⟩

theorem isSome_lt_next {a : Nat} (hs : (h.cell a).isSome = true) : a < h.next := by
  obtain ⟨x, hx⟩ := Option.isSome_iff_exists.mp hs
  exact Heap.lt_next hx

theorem Leaves.trans (hp : Leaves sb w w' p) (hq : Leaves sb w' w'' q) :
    Leaves sb w w'' (p ∨ q) where
  sound := hq.sound
  next_le := hp.next_le.trans hq.next_le
  old a ha := (hq.old a (ha.trans_le hp.next_le)).trans (hp.old a ha)
  handed := by
    rw [← hp.handed, ← hq.handed]
    constructor
    · rintro ⟨a, ha, hs⟩
      by_cases hmid : a < w'.vnodes.next
      · exact .inl ⟨a, ha, by rw [← hq.old a hmid, hs]⟩
      · exact .inr ⟨a, not_lt.mp hmid, hs⟩
    · rintro (⟨a, ha, hs⟩ | ⟨a, ha, hs⟩)
      · exact ⟨a, ha, by rw [hq.old a (isSome_lt_next hs), hs]⟩
      · exact ⟨a, hp.next_le.trans ha, hs⟩

theorem Leaves.of_cells (hs : Sound sb w') (hnext : w'.vnodes.next = w.vnodes.next)
    (hcells : ∀ a, (w'.vnodes.cell a).isSome = (w.vnodes.cell a).isSome) :
    Leaves sb w w' False where
  sound := hs
  next_le := hnext.ge
  old a _ := hcells a
  handed := by
    refine iff_false_intro ?_
    rintro ⟨a, ha, hsome⟩
    rw [hcells] at hsome
    exact absurd (isSome_lt_next hsome) (not_lt.mpr ha)

theorem Sound.leaves_refl (h : Sound sb w) : Leaves sb w w False := Leaves.of_cells h rfl fun _ => rfl

theorem Sound.count_eq_zero (h : Sound sb w) {a : Nat} (ha : w.vnodes.next ≤ a) :
    w.files.count (fun f => decide (f.vn = a)) = 0 := by
  apply Finset.card_eq_zero.mpr
  refine Finset.filter_eq_empty_iff.mpr fun f _ hf => ?_
  cases hx : w.files.cell f with
  | none =>
    rw [hx] at hf
    cases hf
  | some x =>
    rw [hx] at hf
    have hsome := (h.held f x hx).2
    rw [of_decide_eq_true hf, w.vnodes.cell_fresh a ha] at hsome
    cases hsome

theorem Sound.leaves_made (h : Sound sb w) {t : FatState} {h' : Heap FatVnode}
    (hm : Made w.vnodes h' p) : Leaves sb w { w with fat := t, vnodes := h' } p where
  sound := by
    refine ⟨Owns.made h.rooted hm, fun a x hx => ?_, fun f x hx => ⟨(h.held f x hx).1, ?_⟩⟩
    · by_cases ha : a < w.vnodes.next
      · exact h.counted a x (by rw [← hm.old a ha, hx])
      · have hzero := h.count_eq_zero (not_lt.mp ha)
        exact hzero ▸ hm.counted a x (not_lt.mp ha) hx
    · have hsome := (h.held f x hx).2
      rw [← hm.old _ (isSome_lt_next hsome)] at hsome
      exact hsome
  next_le := hm.next_le
  old a ha := by rw [← hm.old a ha]
  handed := by
    rw [← hm.handed]
    refine exists_congr fun a => ?_
    rw [Option.isSome_iff_exists]
    exact exists_and_left.symm

theorem Lifts.leaves {R : Heap FatVnode → α → β → Prop} {m₀ : FatM β}
    (hl : Lifts R m m₀ w p) (h : Sound sb w) : Leaves sb w (m w).2 p := by
  obtain ⟨r, h', hrun, hm, -⟩ := hl
  rw [hrun]
  exact h.leaves_made hm

/-! ## Files -/

/-- A function that leaves no vnode behind and destroys none. -/
def Quiet (sb : FatSuper) (m : WorldM α) : Prop := ∀ w, Sound sb w → Leaves sb w (m w).2 False

theorem Quiet.pure (a : α) : Quiet sb (Pure.pure a : WorldM α) := fun _ h => h.leaves_refl

theorem Quiet.fail (e : Trap Errno) : Quiet sb (Eff.fail e : WorldM α) := fun _ h => h.leaves_refl

theorem Quiet.read (g : World → Except (Trap Errno) α) : Quiet sb (Eff.read g) :=
  fun _ h => h.leaves_refl

theorem Leaves.bind {f : α → WorldM β} (hm : Leaves sb w (m w).2 p)
    (hf : ∀ a, Quiet sb (f a)) : Leaves sb w ((m >>= f) w).2 p := by
  rw [bind_run]
  rcases hrun : m w with ⟨e | a, t⟩
  · rwa [hrun] at hm
  · rw [hrun] at hm
    exact (hm.trans (hf a t hm.sound)).congr (by simp)

theorem Quiet.bind {f : α → WorldM β} (hm : Quiet sb m) (hf : ∀ a, Quiet sb (f a)) :
    Quiet sb (m >>= f) := fun w h => (hm w h).bind hf

theorem Quiet.onFat (m₀ : FatM α) : Quiet sb (Counted.onFat m₀) := fun _ h =>
  (Lifts.onFat m₀).leaves h

theorem isSome_edit (h : Heap FatVnode) (vn : Nat) (g : FatVnode → FatVnode) (a : Nat) :
    ((h.edit vn g).cell a).isSome = (h.cell a).isSome := by
  change (update h.cell vn ((h.cell vn).map g) a).isSome = _
  by_cases ha : a = vn
  · rw [ha, update_self, Option.isSome_map]
  · rw [update_of_ne ha]

theorem Owns.edit {a vn : Nat} (ho : Owns h a node)
    (g : Nat → Nat) : Owns (h.edit vn fun v => { v with refcnt := g v.refcnt }) a node := by
  obtain ⟨c, hc⟩ := ho
  by_cases ha : a = vn
  · subst ha
    exact ⟨g c, by rw [Heap.cell_edit hc, update_self]⟩
  · refine ⟨c, ?_⟩
    change update h.cell vn _ a = _
    rw [update_of_ne ha, hc]

section Files

variable {f vn : Nat} {x : FatVnode} {y : Fd.OpenFile}

theorem Sound.opened (h : Sound sb w) (hx : w.vnodes.cell vn = some x) : Sound sb { w with
    vnodes := w.vnodes.edit vn fun v => { v with refcnt := v.refcnt + 1 }
    files := w.files.push ⟨vn, 1⟩ } where
  rooted := Owns.edit h.rooted _
  counted a z hz := by
    rw [Heap.count_push]
    rw [Heap.cell_edit hx] at hz
    rcases update_at_iff.mp hz with ⟨rfl, ⟨⟩⟩ | ⟨ha, hz⟩
    · have := h.counted a x hx
      simp only [decide_true, if_true]
      omega
    · have := h.counted a z hz
      rw [if_neg (by simpa using Ne.symm ha)]
      omega
  held g z hz := by
    rw [isSome_edit]
    rcases update_at_iff.mp hz with ⟨-, ⟨⟩⟩ | ⟨-, hz⟩
    · exact ⟨Nat.one_pos, by rw [hx]; rfl⟩
    · exact h.held g z hz

theorem Sound.closed (h : Sound sb w) (hy : w.files.cell f = some y)
    (hx : w.vnodes.cell y.vn = some x) : Sound sb { w with
    vnodes := w.vnodes.edit y.vn fun v => { v with refcnt := v.refcnt - 1 }
    files := w.files.free f } where
  rooted := Owns.edit h.rooted fun n => n - 1
  counted a z hz := by
    have hfree := Heap.count_free hy fun g => decide (g.vn = a)
    rw [Heap.cell_edit hx] at hz
    rcases update_at_iff.mp hz with ⟨rfl, ⟨⟩⟩ | ⟨ha, hz⟩
    · have := h.counted _ x hx
      simp only [decide_true, if_true] at hfree
      dsimp only
      omega
    · have := h.counted a z hz
      dsimp only
      omega
  held g z hz := by
    rw [isSome_edit]
    obtain ⟨-, ⟨⟩⟩ | ⟨-, hz⟩ := update_at_iff.mp hz
    exact h.held g z hz

theorem Sound.referenced (h : Sound sb w) (hy : w.files.cell f = some y) {g : Nat → Nat}
    (hg : 0 < g y.refcount) :
    Sound sb { w with files := w.files.edit f fun y => { y with refcount := g y.refcount } } where
  rooted := h.rooted
  counted a z hz := by
    have hedit := Heap.count_edit hy (fun y => { y with refcount := g y.refcount })
      fun k => decide (k.vn = a)
    have := h.counted a z hz
    dsimp only at hedit ⊢
    omega
  held k z hz := by
    rw [Heap.cell_edit hy] at hz
    rcases update_at_iff.mp hz with ⟨-, ⟨⟩⟩ | ⟨-, hz⟩
    · exact ⟨hg, (h.held f y hy).2⟩
    · exact h.held k z hz

theorem quiet_load {m : Fd.OpenFile → WorldM β} (hm : ∀ w y, Sound sb w → w.files.cell f = some y →
    Leaves sb w (m y w).2 False) : Quiet sb (files.load f >>= m) := by
  intro w h
  cases hy : w.files.cell f with
  | none =>
    rw [bind_error (Field.load_fault hy)]
    exact h.leaves_refl
  | some y =>
    rw [bind_ok (Field.load_run hy)]
    exact hm w y h hy

theorem Quiet.fileRef (f : Nat) : Quiet sb (Counted.fileRef f) :=
  quiet_load fun _ _ h hy =>
    Leaves.of_cells (h.referenced hy (g := fun n => n + 1) (Nat.succ_pos _)) rfl fun _ => rfl

theorem Quiet.vfsOpenVnode (vn : Nat) : Quiet sb (Counted.vfsOpenVnode vn) := by
  refine Quiet.bind (Quiet.onFat malloc) fun _ w h => ?_
  cases hx : w.vnodes.cell vn with
  | none =>
    have hstore : vnodeRef vn w = _ := Field.store_fault hx _
    rw [bind_error hstore]
    exact h.leaves_refl
  | some x =>
    have hstore : vnodeRef vn w = _ := Field.store_run hx _
    rw [bind_ok hstore]
    exact Leaves.of_cells (h.opened hx) rfl fun a => isSome_edit _ _ _ a

theorem Quiet.vfsClose (f : Nat) : Quiet sb (Counted.vfsClose f) := by
  refine quiet_load fun w y h hy => ?_
  split_ifs with hmany
  · rw [Field.store_run hy]
    exact Leaves.of_cells (h.referenced hy (g := fun n => n - 1) (by omega)) rfl fun _ => rfl
  · obtain ⟨x, hx⟩ := Option.isSome_iff_exists.mp (h.held f y hy).2
    have hcount := h.counted _ x hx
    have hpos : 0 < w.files.count (fun g => decide (g.vn = y.vn)) :=
      Heap.count_pos hy (decide_eq_true rfl)
    -- One reference is the file's and one is nobody's, so this is not the last.
    have hunref : vnodeUnref y.vn w = (.ok (), { w with
        vnodes := w.vnodes.edit y.vn fun v => { v with refcnt := v.refcnt - 1 } }) := by
      rw [vnodeUnref, bind_ok (Field.load_run hx), if_neg (by omega),
        bind_ok (Field.store_run hx _), if_neg (by omega)]
      rfl
    rw [bind_ok hunref, Field.release_run hy]
    exact Leaves.of_cells (h.closed hy hx) rfl fun a => isSome_edit _ _ _ a

theorem Quiet.fileUnref (f : Nat) : Quiet sb (Counted.fileUnref f) := by
  refine quiet_load fun w y h hy => ?_
  split_ifs with hlast
  · exact Quiet.vfsClose f w h
  · rw [Field.store_run hy]
    exact Leaves.of_cells (h.referenced hy (g := fun n => n - 1) (by omega)) rfl fun _ => rfl

end Files

/-! ## Calls -/

section Calls

variable {path : List UInt8} {a : Fd.PathArg}

theorem leaves_resolved {m : List UInt8 → WorldM β} {hands : List UInt8 → Prop} (h : Sound sb w)
    (hm : ∀ path, a.resolve = .ok path → Leaves sb w (m path w).2 (hands path)) :
    Leaves sb w ((resolved a >>= m) w).2 (∃ path, a.resolve = .ok path ∧ hands path) := by
  cases ha : a.resolve with
  | error e =>
    have hrun : resolved a w = (.error (.code e), w) := by
      rw [resolved, ha]
      rfl
    rw [bind_error hrun]
    exact h.leaves_refl.congr (by simp)
  | ok path =>
    have hrun : resolved a w = (.ok path, w) := by
      rw [resolved, ha]
      rfl
    rw [bind_ok hrun]
    exact (hm path ha).congr (by simp)

theorem quiet_vnode {vn : Nat} {m : FatVnode → WorldM β} (hm : ∀ v, Quiet sb (m v)) :
    Quiet sb (vnodes.load vn >>= m) := Quiet.bind (Quiet.read _) hm

theorem Quiet.installOpened (installed : Bool) (f : Nat) :
    Quiet sb (Counted.installOpened installed f) := by
  unfold Counted.installOpened
  split_ifs
  · exact Quiet.bind (Quiet.fileRef f) fun _ => Quiet.fileUnref f
  · exact Quiet.bind (Quiet.fileUnref f) fun _ => Quiet.fail _

theorem sysOpen_leaves (h : Sound sb w) (create installed : Bool) :
    Leaves sb w (sysOpen sb a create installed w).2
      (∃ path, a.resolve = .ok path ∧ OpenHands sb path create w.fat) := by
  refine leaves_resolved h fun path _ => Leaves.bind ?_ fun f => Quiet.installOpened installed f
  exact Leaves.bind ((vfsFindOrCreate_lifts h.rooted).leaves h) fun vn => Quiet.vfsOpenVnode vn

theorem lookup_leaves {m : Nat → WorldM β} (h : Sound sb w) (hm : ∀ vn, Quiet sb (m vn)) :
    Leaves sb w ((vfsLookup sb path >>= m) w).2 (FirstFound sb (fatRootNode sb) path w.fat) :=
  Leaves.bind ((vfsLookup_lifts path h.rooted).leaves h) hm

theorem Quiet.execReads (vn : Nat) (reads : List (Nat → Bool)) :
    Quiet sb (Counted.execReads vn reads) := by
  induction reads with
  | nil => exact Quiet.pure ()
  | cons mem rest ih =>
    have hmem : Quiet sb (Eff.modify fun w => { w with fat := { w.fat with mem } } : WorldM Unit) :=
      fun w h => Leaves.of_cells ⟨h.rooted, h.counted, h.held⟩ rfl fun _ => rfl
    refine Quiet.bind (Quiet.bind hmem fun _ => ?_) fun _ => ih
    exact Quiet.bind (Quiet.vfsOpenVnode vn) fun f => Quiet.vfsClose f

def vfsMkdirEntry (sb : FatSuper) (path : List UInt8) : FatM Unit := do
  let target ← Vfs.vfsResolveParentPath sb path
  if target.1.isDir = false then Eff.fail .notDirectory
  else do
    let _ ← fatCreateVn sb target.1 target.2 .dir

def MkdirHands (sb : FatSuper) (path : List UInt8) (s : FatState) : Prop :=
  ParentFound sb (fatRootNode sb) path s ∨ (vfsMkdirEntry sb path s).1.isOk = true

theorem makeDirectory_lifts {dir : Nat} {d : FatNode} {name : List UInt8}
    (hd : Owns w.vnodes dir d) :
    Lifts (fun _ _ _ => True)
      (vnodes.load dir >>= fun parent => if parent.node.isDir = false then failWith .notDirectory
        else fatCreate sb dir name .dir >>= fun _ => pure ())
      (if d.isDir = false then Eff.fail .notDirectory
        else fatCreateVn sb d name .dir >>= fun _ => pure ()) w
      (((if d.isDir = false then Eff.fail .notDirectory
        else fatCreateVn sb d name .dir >>= fun _ => pure () : FatM Unit) w.fat).1.isOk = true) := by
  refine Lifts.load hd fun c => ?_
  split_ifs with hdir
  · exact Lifts.failed rfl rfl (Made.refl _)
  · refine (Lifts.bind (q := fun _ => False) (fatCreate_lifts hd)
      fun a b h' _ _ _ => Lifts.pure trivial).congr ?_
    rw [bind_isOk, isOk_or_later]
    rcases (fatCreateVn sb d name .dir w.fat) with ⟨e | node, t⟩ <;>
      simp [Except.isOk, Except.toBool, pure_run]

theorem vfsMkdir_lifts (hroot : Rooted sb w) :
    Lifts (fun _ _ _ => True) (vfsMkdir sb path) (vfsMkdirEntry sb path) w
      (MkdirHands sb path w.fat) := by
  rw [MkdirHands, vfsMkdirEntry, bind_isOk]
  exact Lifts.bind (vfsResolveParentPath_lifts hroot)
    fun a b h' _ hab _ => hab.2 ▸ makeDirectory_lifts hab.1

def HasComponent (path : List UInt8) : Prop :=
  ∃ name rest, vfsNextComponent path = .ok (some name, rest)

theorem FirstFound.hasComponent {d : FatNode} {s : FatState} (h : FirstFound sb d path s) :
    HasComponent path := by
  obtain ⟨name, rest, hc, -⟩ := h
  exact ⟨name, rest, hc⟩

theorem firstFound_of_lookup {s t : FatState}
    (h : Vfs.vfsLookup sb path s = (.ok node, t)) (hc : HasComponent path) :
    FirstFound sb (fatRootNode sb) path s := by
  obtain ⟨name, rest, hc⟩ := hc
  have hne : path ≠ [] := by
    rintro rfl
    simp [vfsNextComponent] at hc
  rw [Vfs.vfsLookup, if_neg hne] at h
  obtain ⟨current, u, hloop, -⟩ := exists_of_bind_ok h
  rw [Vfs.vfsLookupLoop, hc] at hloop
  obtain ⟨next, v, hnext, -⟩ :=
    exists_of_bind_ok ((bind_ok (a := (some name, rest)) (t := s) rfl).symm.trans hloop)
  exact ⟨name, rest, hc, by rw [hnext]; rfl⟩

theorem vfsUnlinkEntry_lifts (hroot : Rooted sb w) :
    Lifts (fun _ _ _ => True) (vfsUnlinkEntry sb path) (Vfs.vfsUnlinkEntry sb path) w
      (ParentFound sb (fatRootNode sb) path w.fat) := by
  have hentry : Lifts (fun _ _ _ => True) (vfsUnlinkEntry sb path) (Vfs.vfsUnlinkEntry sb path) w _ :=
    Lifts.bind (vfsResolveParentPath_lifts hroot) (q := fun _ => False) fun a b h' _ hab _ => by
      refine Lifts.load hab.1 fun c => ?_
      split_ifs
      · exact Lifts.fail _
      · exact hab.2 ▸ fatUnlink_lifts hab.1
  exact hentry.congr (by simp)

theorem slashTest_lifts (path : List UInt8) (hroot : Rooted sb w) : ∃ q, Lifts (fun _ _ _ => True)
    (if 1 < path.length ∧ endsInSlash path = true then
      vfsLookup sb path >>= fun target => vnodes.load target >>= fun t =>
        if t.node.isDir = false then failWith .notDirectory else pure ()
    else pure ())
    (if 1 < path.length ∧ endsInSlash path = true then
      Vfs.vfsLookup sb path >>= fun target =>
        if target.isDir = false then Eff.fail .notDirectory else pure ()
    else pure ()) w q ∧ (q → HasComponent path) := by
  split_ifs with hslash
  · refine ⟨_, Lifts.bind (vfsLookup_lifts path hroot) (q := fun _ => False) fun a b h' _ hab _ => ?_, ?_⟩
    · refine Lifts.load hab fun c => ?_
      split_ifs
      · exact Lifts.fail _
      · exact Lifts.pure trivial
    · rintro (hfound | ⟨b, -, hfalse⟩)
      · exact hfound.hasComponent
      · exact hfalse.elim
  · exact ⟨_, Lifts.pure trivial, False.elim⟩

theorem vfsUnlink_lifts (path : List UInt8) (hroot : Rooted sb w) : ∃ q,
    Lifts (fun _ _ _ => True) (vfsUnlink sb path) (Vfs.vfsUnlink sb path) w q ∧ (q → HasComponent path) := by
  obtain ⟨q, htest, hq⟩ := slashTest_lifts path hroot
  have hentry : ∀ h' t, Made w.vnodes h' q → Lifts (fun _ _ _ => True) (vfsUnlinkEntry sb path)
      (Vfs.vfsUnlinkEntry sb path) { w with fat := t, vnodes := h' }
      (ParentFound sb (fatRootNode sb) path t) :=
    fun h' t hmade => vfsUnlinkEntry_lifts (Owns.made hroot hmade)
  refine ⟨_, Lifts.bind htest fun a b h' _ _ hmade => hentry h' _ hmade, ?_⟩
  rintro (hslash | ⟨b, -, hparent⟩)
  · exact hq hslash
  · exact hparent.1.hasComponent

theorem sysRemove_leaves (h : Sound sb w) (call : Fd.RemoveCall) :
    Leaves sb w (sysRemove sb call a w).2
      (∃ path, a.resolve = .ok path ∧ FirstFound sb (fatRootNode sb) path w.fat) := by
  refine leaves_resolved h fun path _ => ?_
  obtain ⟨r, h', hrun, hmade, hsame⟩ := vfsLookup_lifts path h.rooted
  rcases h₀ : Vfs.vfsLookup sb path w.fat with ⟨r₀, t⟩
  rw [h₀] at hrun hsame
  have hleaves := h.leaves_made (t := t) hmade
  cases hsame with
  | error e =>
    rw [bind_error hrun]
    exact hleaves
  | @ok vn node hvn =>
    obtain ⟨c, hc⟩ := hvn
    rw [bind_ok hrun, bind_ok (Field.load_run hc)]
    cases refuses call node with
    | some e => exact hleaves
    | none =>
      obtain ⟨q, hunlink, hq⟩ := vfsUnlink_lifts path hleaves.sound.rooted
      refine (hleaves.trans (hunlink.leaves hleaves.sound)).congr ?_
      exact or_iff_left_of_imp fun hk => firstFound_of_lookup h₀ (hq hk)

/-- Whether a call leaves a vnode behind, by its arguments and the volume it finds. -/
def PathCall.Escapes (sb : FatSuper) (s : FatState) : PathCall → Prop
  | .openPath a create _ => ∃ path, a.resolve = .ok path ∧ OpenHands sb path create s
  | .close _ => False
  | .dup _ => False
  | .stat a valid =>
    ∃ path, a.resolve = .ok path ∧ valid = true ∧ FirstFound sb (fatRootNode sb) path s
  | .chdir a => ∃ path, a.resolve = .ok path ∧ FirstFound sb (fatRootNode sb) path s
  | .mkdir a => ∃ path, a.resolve = .ok path ∧ MkdirHands sb path s
  | .remove _ a => ∃ path, a.resolve = .ok path ∧ FirstFound sb (fatRootNode sb) path s
  | .exec a args _ =>
    args = .ok () ∧ ∃ path, a.resolve = .ok path ∧ FirstFound sb (fatRootNode sb) path s

theorem PathCall.leaves (h : Sound sb w) (c : PathCall) :
    Leaves sb w (c.exe sb w).2 (c.Escapes sb w.fat) := by
  cases c with
  | openPath a create installed => exact sysOpen_leaves h create installed
  | close f => exact Quiet.fileUnref f w h
  | dup f => exact Quiet.fileRef f w h
  | stat a valid =>
    refine leaves_resolved h fun path _ => ?_
    cases valid with
    | false => exact h.leaves_refl.congr (by simp)
    | true => exact (lookup_leaves h fun _ => Quiet.pure ()).congr (by simp)
  | chdir a =>
    refine leaves_resolved h fun path _ => lookup_leaves h fun vn => quiet_vnode fun v => ?_
    split_ifs
    · exact Quiet.fail _
    · exact Quiet.pure ()
  | mkdir a => exact leaves_resolved h fun path _ => (vfsMkdir_lifts h.rooted).leaves h
  | remove call a => exact sysRemove_leaves h call
  | exec a args reads =>
    cases args with
    | error e => exact h.leaves_refl.congr (by simp [Escapes])
    | ok u =>
      have hwalk : Leaves sb w (sysExec sb a (.ok u) reads w).2
          (∃ path, a.resolve = .ok path ∧ FirstFound sb (fatRootNode sb) path w.fat) :=
        leaves_resolved (m := fun path => vfsLookup sb path >>= fun vn => execReads vn reads) h
          fun path _ => lookup_leaves h fun vn => Quiet.execReads vn reads
      exact hwalk.congr (by simp [Escapes])

end Calls

/-! ## Runs -/

/-- The call leaves a vnode behind with the allocations it meets. -/
def Request.Escapes (sb : FatSuper) (r : Request) (w : World) : Prop :=
  r.call.Escapes sb (r.begin w).fat

theorem Request.leaves (h : Sound sb w) (r : Request) :
    Leaves sb w (r.step sb w) (r.Escapes sb w) := by
  have hbegin : Leaves sb w (r.begin w) False :=
    Leaves.of_cells ⟨h.rooted, h.counted, h.held⟩ rfl fun _ => rfl
  exact (hbegin.trans (PathCall.leaves hbegin.sound r.call)).congr (by simp [Request.Escapes])

theorem run_leaves (h : Sound sb w) (rs : List Request) : Leaves sb w (run sb rs w)
    (∃ pre r post, rs = pre ++ r :: post ∧ r.Escapes sb (run sb pre w)) := by
  induction rs generalizing w with
  | nil => exact h.leaves_refl.congr (by simp)
  | cons r rs ih =>
    have hstep := r.leaves h
    refine (hstep.trans (ih hstep.sound)).congr ?_
    constructor
    · rintro (hr | ⟨pre, r', post, rfl, hr'⟩)
      · exact ⟨[], r, rs, rfl, hr⟩
      · exact ⟨r :: pre, r', post, rfl, hr'⟩
    · rintro ⟨pre, r', post, hsplit, hr'⟩
      cases pre with
      | nil =>
        cases hsplit
        exact .inl hr'
      | cons r'' pre =>
        cases hsplit
        exact .inr ⟨pre, r', post, rfl, hr'⟩

/-- The vnodes that a run makes are all destroyed if and only if none of its calls leaves one
behind, whatever files are open in the end. -/
theorem run_destroys_iff (sb : FatSuper) (w : World) (h : Sound sb w) (rs : List Request) :
    (∀ a, w.vnodes.next ≤ a → a < (run sb rs w).vnodes.next →
      (run sb rs w).vnodes.cell a = none ∧ (run sb rs w).vnodes.freed a = 1) ↔
    ∀ pre r post, rs = pre ++ r :: post → ¬ r.Escapes sb (run sb pre w) := by
  have hleaves := run_leaves h rs
  have hiff : (∀ a, w.vnodes.next ≤ a → a < (run sb rs w).vnodes.next →
      (run sb rs w).vnodes.cell a = none ∧ (run sb rs w).vnodes.freed a = 1) ↔
      ¬ ∃ a, w.vnodes.next ≤ a ∧ ((run sb rs w).vnodes.cell a).isSome = true := by
    constructor
    · rintro hall ⟨a, ha, hsome⟩
      rw [(hall a ha (isSome_lt_next hsome)).1] at hsome
      cases hsome
    · intro hnone a ha hlt
      have hcell : (run sb rs w).vnodes.cell a = none := by
        by_contra hsome
        exact hnone ⟨a, ha, Option.isSome_iff_ne_none.mpr hsome⟩
      have hpos := w.vnodes.next_pos
      exact ⟨hcell, by rw [Heap.freed_eq, if_pos ⟨by omega, hlt, hcell⟩]⟩
  rw [hiff, hleaves.handed]
  push Not
  rfl

/-- A floppy disk with one file, `A`, in its root directory. -/
def floppy : FatSuper :=
  ⟨floppyLayout, fatProbeLayout_sound (by decide)
    (show fatProbeLayout 512 2880 floppyBpb 2880 = .ok floppyLayout from rfl)⟩

def floppyDisk : Disk := fun i => if i = 9728 then 0x41 else if 9728 < i ∧ i < 9740 then 0x20 else 0

def mounted : World where
  fat := ⟨floppyDisk, fun _ => true, fatRootNode floppy, 0, fun _ => 0⟩
  vnodes := Heap.empty.push ⟨1, fatRootNode floppy⟩
  files := Heap.empty
  root := 1

theorem mounted_sound : Sound floppy mounted where
  rooted := ⟨1, rfl⟩
  counted a x hx := by
    rw [show mounted.files.count _ = 0 from Heap.count_empty _]
    have hcell : mounted.vnodes.cell =
        update Heap.empty.cell 1 (some ⟨1, fatRootNode floppy⟩) := rfl
    rw [hcell] at hx
    obtain ⟨-, ⟨⟩⟩ | ⟨-, ⟨⟩⟩ := update_at_iff.mp hx
    exact Nat.one_pos
  held f x hx := nomatch hx

/-- A path at address one of the user's memory. -/
def pathAt (path : List UInt8) : Fd.PathArg where
  user i := some (path.getD (i - 1) 0)
  address := 1
  cwd := [0x2F]
  stack _ := 0

/-- `stat("/")` walks to no other vnode than the root's. -/
theorem run_destroys_iff_mounted : Sound floppy mounted ∧
    ∀ a, mounted.vnodes.next ≤ a →
      a < (run floppy [⟨fun _ => true, .stat (pathAt [0x2F]) true⟩] mounted).vnodes.next →
      (run floppy [⟨fun _ => true, .stat (pathAt [0x2F]) true⟩] mounted).vnodes.cell a = none ∧
      (run floppy [⟨fun _ => true, .stat (pathAt [0x2F]) true⟩] mounted).vnodes.freed a = 1 := by
  refine ⟨mounted_sound, (run_destroys_iff floppy mounted mounted_sound _).mpr ?_⟩
  rintro pre r post hsplit
  obtain ⟨rfl, rfl⟩ : pre = [] ∧ r = ⟨fun _ => true, .stat (pathAt [0x2F]) true⟩ := by
    cases pre with
    | nil =>
      cases hsplit
      exact ⟨rfl, rfl⟩
    | cons r' pre =>
      have hlen := congrArg List.length hsplit
      simp at hlen
  rintro ⟨path, hpath, -, hfound⟩
  have hroot : (pathAt [0x2F]).resolve = .ok [0x2F] := by rfl
  cases hroot.symm.trans hpath
  obtain ⟨name, rest, hc⟩ := hfound.hasComponent
  cases hc

/-- After `stat("/A")` no file is open, and the vnode of `A` is still there. -/
theorem stat_leaves_vnode : Sound floppy mounted ∧
    (∀ f, (run floppy [⟨fun _ => true, .stat (pathAt [0x2F, 0x41]) true⟩] mounted).files.cell f =
      none) ∧
    mounted.vnodes.next ≤ 2 ∧
    ((run floppy [⟨fun _ => true, .stat (pathAt [0x2F, 0x41]) true⟩] mounted).vnodes.cell 2).isSome =
      true := by
  refine ⟨mounted_sound, fun f => ?_, by decide, by decide +kernel⟩
  have hnext : (run floppy [⟨fun _ => true, .stat (pathAt [0x2F, 0x41]) true⟩] mounted).files.next =
    1 := by decide +kernel
  rcases Nat.eq_zero_or_pos f with rfl | hf
  · exact Heap.cell_zero _
  · exact Heap.cell_fresh _ f (by omega)

end CfKernel.Vfs.Counted
