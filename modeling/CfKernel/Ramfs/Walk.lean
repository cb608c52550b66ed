import CfKernel.Lib.Pieces
import CfKernel.Ramfs.Dir
import CfKernel.Vfs.Path

/-!
# Paths on a ramfs

`lookup.c` and the functions of `vfs.c` that make and remove entries, with a ramfs mounted as the
root. In a well-formed ramfs every vnode on the way is that of a linked node, nothing is allocated
for it, and no step touches an object that is gone.
-/

namespace CfKernel.Ramfs

open Lib Lib.Eff Fat Vfs

def vfsLookupComponent (dir : Nat) (name : List UInt8) : TreeM Nat := do
  let d ← vnodes.load dir
  if d.type ≠ .dir then failWith .notDirectory else ramfsLookupVn dir name

/-- `vfs_next_component` as a step. -/
def nextComponent (cursor : List UInt8) : TreeM (Option (List UInt8) × List UInt8) :=
  Eff.read fun _ => (vfsNextComponent cursor).mapError .code

def vfsLookupLoop : Nat → List UInt8 → Nat → TreeM Nat
  | 0, _, _ => Eff.fail .fault
  | n + 1, cursor, current => do
    match ← nextComponent cursor with
    | (none, _) => pure current
    | (some name, rest) => do
      let next ← vfsLookupComponent current name
      vfsLookupLoop n rest next

/-- The last test of `vfs_lookup`. -/
def slashOnDirectory (path : List UInt8) (current : Nat) : TreeM Nat := do
  let c ← vnodes.load current
  if endsInSlash path = true ∧ c.type ≠ .dir then failWith .notDirectory else pure current

def vfsLookup (root : Nat) (path : List UInt8) : TreeM Nat :=
  if path = [] then failWith .invalidArgument
  else if root = 0 then failWith .notFound
  else do
    let current ← vfsLookupLoop (path.length + 1) path root
    slashOnDirectory path current

/-- The copy of the last component is one allocation. -/
def leafName (parent : Nat) (name : List UInt8) : TreeM (Nat × List UInt8) := do
  if ← allocate then pure (parent, name) else failWith .outOfMemory

def vfsResolveLoop : Nat → List UInt8 → Nat → TreeM (Nat × List UInt8)
  | 0, _, _ => Eff.fail .fault
  | n + 1, cursor, current => do
    match ← nextComponent cursor with
    | (none, _) => failWith .invalidArgument
    | (some name, rest) =>
      if rest = [] then
        if isDotName name then failWith .invalidArgument else leafName current name
      else do
        let next ← vfsLookupComponent current name
        vfsResolveLoop n rest next

def vfsResolveParentPath (root : Nat) (path : List UInt8) : TreeM (Nat × List UInt8) :=
  if path = [] then failWith .invalidArgument
  else if root = 0 then failWith .notFound
  else vfsResolveLoop (path.length + 1) path root

/-- The branch of `vfs_open` for a path that is not there. -/
def vfsCreateFile (root : Nat) (path : List UInt8) : TreeM Nat :=
  if endsInSlash path then failWith .notDirectory
  else do
    let target ← vfsResolveParentPath root path
    ramfsCreateVn target.1 target.2 .file

/-- The vnode that `vfs_open` opens; `create` is the flag `VFS_O_CREATE`. -/
def vfsFindOrCreate (root : Nat) (path : List UInt8) (create : Bool) : TreeM Nat := do
  match ← Eff.attempt (vfsLookup root path) with
  | .ok vn => pure vn
  | .error e =>
    if e = .code .notFound ∧ create = true then vfsCreateFile root path else Eff.fail e

def vfsMkdir (root : Nat) (path : List UInt8) : TreeM Unit := do
  let target ← vfsResolveParentPath root path
  let parent ← vnodes.load target.1
  if parent.type ≠ .dir then failWith .notDirectory
  else do
    let _ ← ramfsCreateVn target.1 target.2 .dir

/-- `vfs_unlink` after its test of a path that ends in a slash. -/
def vfsUnlinkEntry (root : Nat) (path : List UInt8) : TreeM Unit := do
  let target ← vfsResolveParentPath root path
  let parent ← vnodes.load target.1
  if parent.type ≠ .dir then failWith .notDirectory else ramfsUnlinkVn target.1 target.2

def vfsUnlink (root : Nat) (path : List UInt8) : TreeM Unit :=
  if 1 < path.length ∧ endsInSlash path = true then do
    let target ← vfsLookup root path
    let t ← vnodes.load target
    if t.type ≠ .dir then failWith .notDirectory else vfsUnlinkEntry root path
  else vfsUnlinkEntry root path

variable {s t : Tree} {kids : Nat → List Nat} {held : Nat → Nat} {v r : Nat} {n : RamfsNode}
variable {path cursor name : List UInt8}

/-- `v` is the vnode of a node that is linked in the tree. -/
def Attached (s : Tree) (v : Nat) : Prop :=
  ∃ p n, s.nodes.cell p = some n ∧ Linked s.root p n ∧ n.vnodeCache = v

/-- Ends with an error code and `P`, or with a value and `Q`. -/
abbrev Answers {α : Type} (m : TreeM α) (s : Tree) (P : Tree → Prop) (Q : α → Tree → Prop) : Prop :=
  Ends m s Q fun e t => (∃ c, e = .code c) ∧ P t

/-- A search of the tree as it is. -/
abbrev Looks (m : TreeM Nat) (s : Tree) : Prop :=
  Answers m s (· = s) fun w t => t = s ∧ Attached s w

theorem Answers.noFault {α : Type} {m : TreeM α} {P : Tree → Prop} (h : Answers m s P fun _ t => P t) :
    ∃ out t, m s = (out, t) ∧ out ≠ .error .fault ∧ P t := by
  rcases h with ⟨a, t, hrun, ht⟩ | ⟨_, t, hrun, ⟨e, rfl⟩, ht⟩
  · exact ⟨_, t, hrun, by simp, ht⟩
  · exact ⟨_, t, hrun, by simp, ht⟩

theorem Same.attached (h : Same s t) (hv : Attached s v) : Attached t v := by
  obtain ⟨p, n, hn, hl, hcache⟩ := hv
  exact ⟨p, n, by rw [h.nodes, hn], by rw [h.root]; exact hl, hcache⟩

namespace WellFormed

variable (h : WellFormed s kids held)
include h

theorem attached_vnode (hv : Attached s v) :
    ∃ x n, s.vnodes.cell v = some x ∧ s.nodes.cell x.fsData = some n ∧
      Linked s.root x.fsData n := by
  obtain ⟨p, n, hn, hl, rfl⟩ := hv
  exact ⟨_, n, h.cached hn hl, hn, hl⟩

theorem vfsLookupComponent_ends (hv : Attached s v) (name : List UInt8) :
    Looks (vfsLookupComponent v name) s := by
  obtain ⟨x, n, hx, hn, hl⟩ := h.attached_vnode hv
  refine .step (loadVnode hx) (.ite (fun _ => ends_fail ⟨⟨_, rfl⟩, rfl⟩) fun _ => ?_)
  rcases h.ramfsLookupVn_cases hx hn hl name with ⟨e, hrun⟩ | ⟨c, m, hm, hlm, hrun⟩
  · exact .inr ⟨_, s, hrun, ⟨e, rfl⟩, rfl⟩
  · exact .inl ⟨_, s, hrun, rfl, c, m, hm, hlm, rfl⟩

end WellFormed

section Components

theorem vfsNextComponent_none (h : cursor.dropWhile (· = 0x2F) = []) :
    vfsNextComponent cursor = .ok (none, []) :=
  if_pos h

section

variable (h : cursor.dropWhile (· = 0x2F) ≠ [])
include h

theorem vfsNextComponent_long (hlong : 255 < (nextPiece 0x2F cursor).length) :
    vfsNextComponent cursor = .error .nameTooLong :=
  (if_neg h).trans (if_pos hlong)

theorem vfsNextComponent_some (hlong : ¬ 255 < (nextPiece 0x2F cursor).length) :
    vfsNextComponent cursor =
      .ok (some (nextPiece 0x2F cursor), (afterPiece 0x2F cursor).dropWhile (· = 0x2F)) :=
  (if_neg h).trans (if_neg hlong)

theorem length_rest_lt : ((afterPiece 0x2F cursor).dropWhile (· = 0x2F)).length < cursor.length :=
  (List.dropWhile_suffix _).length_le.trans_lt (length_afterPiece_lt h)

end

theorem nextComponent_run {c : Option (List UInt8) × List UInt8}
    (h : vfsNextComponent cursor = .ok c) : nextComponent cursor s = (.ok c, s) := by
  rw [nextComponent, Eff.read, h]
  rfl

theorem nextComponent_error {e : Errno} (h : vfsNextComponent cursor = .error e) :
    nextComponent cursor s = (.error (.code e), s) := by
  rw [nextComponent, Eff.read, h]
  rfl

theorem vfsLookupLoop_end (k : Nat) (h : cursor.dropWhile (· = 0x2F) = []) :
    vfsLookupLoop (k + 1) cursor v s = (.ok v, s) := by
  rw [vfsLookupLoop, bind_run, nextComponent_run (vfsNextComponent_none h)]
  rfl

theorem vfsLookupLoop_long (k : Nat) (h : cursor.dropWhile (· = 0x2F) ≠ [])
    (hlong : 255 < (nextPiece 0x2F cursor).length) :
    vfsLookupLoop (k + 1) cursor v s = (.error (.code .nameTooLong), s) := by
  rw [vfsLookupLoop, bind_run, nextComponent_error (vfsNextComponent_long h hlong)]
  rfl

theorem vfsLookupLoop_turn (k : Nat) (h : cursor.dropWhile (· = 0x2F) ≠ [])
    (hlong : ¬ 255 < (nextPiece 0x2F cursor).length) :
    vfsLookupLoop (k + 1) cursor v s = (vfsLookupComponent v (nextPiece 0x2F cursor) >>=
      vfsLookupLoop k ((afterPiece 0x2F cursor).dropWhile (· = 0x2F))) s := by
  rw [vfsLookupLoop, bind_run, nextComponent_run (vfsNextComponent_some h hlong)]
  rfl

theorem vfsResolveLoop_turn (k : Nat) (h : cursor.dropWhile (· = 0x2F) ≠ [])
    (hlong : ¬ 255 < (nextPiece 0x2F cursor).length) :
    vfsResolveLoop (k + 1) cursor v s =
      (if (afterPiece 0x2F cursor).dropWhile (· = 0x2F) = [] then
        if isDotName (nextPiece 0x2F cursor) then failWith .invalidArgument
        else leafName v (nextPiece 0x2F cursor)
      else vfsLookupComponent v (nextPiece 0x2F cursor) >>=
        vfsResolveLoop k ((afterPiece 0x2F cursor).dropWhile (· = 0x2F))) s := by
  rw [vfsResolveLoop, bind_run, nextComponent_run (vfsNextComponent_some h hlong)]
  rfl

end Components

namespace WellFormed

variable (h : WellFormed s kids held)
include h

theorem vfsLookupLoop_ends {k : Nat} (hk : cursor.length < k) (hv : Attached s v) :
    Looks (vfsLookupLoop k cursor v) s := by
  induction k generalizing cursor v with
  | zero => omega
  | succ k ih =>
    by_cases hnil : cursor.dropWhile (· = 0x2F) = []
    · exact .inl ⟨v, s, vfsLookupLoop_end k hnil, rfl, hv⟩
    by_cases hlong : 255 < (nextPiece 0x2F cursor).length
    · exact .inr ⟨_, s, vfsLookupLoop_long k hnil hlong, ⟨_, rfl⟩, rfl⟩
    refine .congr (vfsLookupLoop_turn k hnil hlong) ((h.vfsLookupComponent_ends hv _).bind ?_)
    rintro w _ ⟨rfl, hw⟩
    exact ih ((length_rest_lt hnil).trans_le (Nat.le_of_lt_succ hk)) hw

theorem slashOnDirectory_ends (hv : Attached s v) (path : List UInt8) :
    Answers (slashOnDirectory path v) s (· = s) fun w t => t = s ∧ w = v := by
  obtain ⟨x, n, hx, -, -⟩ := h.attached_vnode hv
  exact .step (loadVnode hx) (.ite (fun _ => ends_fail ⟨⟨_, rfl⟩, rfl⟩) fun _ => ends_pure ⟨rfl, rfl⟩)

theorem vfsLookup_ends (hr : Attached s r) (path : List UInt8) : Looks (vfsLookup r path) s := by
  obtain ⟨x, n, hx, -, -⟩ := h.attached_vnode hr
  refine .ite (fun _ => ends_fail ⟨⟨_, rfl⟩, rfl⟩) fun _ =>
    .ite (fun hnull => absurd hnull (Heap.ne_zero hx)) fun _ => ?_
  refine (h.vfsLookupLoop_ends (Nat.lt_succ_self path.length) hr).bind ?_
  rintro w _ ⟨rfl, hw⟩
  refine (h.slashOnDirectory_ends hw path).mono ?_ fun _ _ he => he
  rintro _ t ⟨ht, rfl⟩
  exact ⟨ht, hw⟩

theorem vfsResolveLoop_ends {k : Nat} (hk : cursor.length < k) (hv : Attached s v) :
    Answers (vfsResolveLoop k cursor v) s (Same s) fun w t => Same s t ∧ Attached s w.1 := by
  induction k generalizing cursor v with
  | zero => omega
  | succ k ih =>
    by_cases hnil : cursor.dropWhile (· = 0x2F) = []
    · exact .step (nextComponent_run (vfsNextComponent_none hnil)) (ends_fail ⟨⟨_, rfl⟩, .refl s⟩)
    by_cases hlong : 255 < (nextPiece 0x2F cursor).length
    · exact .inr ⟨_, s, bind_error (nextComponent_error (vfsNextComponent_long hnil hlong)),
        ⟨_, rfl⟩, .refl s⟩
    refine .congr (vfsResolveLoop_turn k hnil hlong) ?_
    refine .ite (fun _ => .ite (fun _ => ends_fail ⟨⟨_, rfl⟩, .refl s⟩) fun _ => ?_) fun _ => ?_
    · exact .step (t := { s with alloc := fun n => s.alloc (n + 1) }) rfl
        (.ite (fun _ => ends_pure ⟨⟨rfl, rfl, rfl⟩, hv⟩) fun _ => ends_fail ⟨⟨_, rfl⟩, rfl, rfl, rfl⟩)
    · refine ((h.vfsLookupComponent_ends hv _).mono (fun _ _ hw => hw) ?_).bind ?_
      · rintro e _ ⟨he, rfl⟩
        exact ⟨he, .refl _⟩
      · rintro w _ ⟨rfl, hw⟩
        exact ih ((length_rest_lt hnil).trans_le (Nat.le_of_lt_succ hk)) hw

theorem vfsResolveParentPath_ends (hr : Attached s r) (path : List UInt8) :
    Answers (vfsResolveParentPath r path) s (Same s) fun w t => Same s t ∧ Attached s w.1 := by
  obtain ⟨x, n, hx, -, -⟩ := h.attached_vnode hr
  exact .ite (fun _ => ends_fail ⟨⟨_, rfl⟩, .refl s⟩) fun _ =>
    .ite (fun hnull => absurd hnull (Heap.ne_zero hx)) fun _ =>
      h.vfsResolveLoop_ends (Nat.lt_succ_self path.length) hr

end WellFormed

/-- A well-formed ramfs whose root has the vnode `r`. -/
structure Sound (r : Nat) (held : Nat → Nat) (s : Tree) : Prop where
  wellFormed : ∃ kids, WellFormed s kids held
  root : ∃ n, s.nodes.cell s.root = some n ∧ n.vnodeCache = r

section Sound

theorem Sound.attached (h : Sound r held s) : Attached s r := by
  obtain ⟨n, hn, hcache⟩ := h.root
  exact ⟨s.root, n, hn, .inl rfl, hcache⟩

theorem Sound.same (h : Sound r held s) (ht : Same s t) : Sound r held t := by
  obtain ⟨kids, hwf⟩ := h.wellFormed
  exact ⟨⟨kids, ht.wellFormed hwf⟩, by rw [ht.nodes, ht.root]; exact h.root⟩

theorem Sound.relinked {c : Nat} {held' : Nat → Nat} {kids' : Nat → List Nat} (h : Sound r held s)
    (ht : WellFormed t kids' held') (hk : Relinked c s.nodes.cell t.nodes.cell)
    (hroot : t.root = s.root) (hc : s.root ≠ c) : Sound r held' t := by
  obtain ⟨n, hn, hcache⟩ := h.root
  obtain ⟨ch, sib, hn'⟩ := hk.to_new hc hn
  rw [← hroot] at hn'
  exact ⟨⟨kids', ht⟩, _, hn', hcache⟩

/-- A call that keeps the ramfs sound and returns a vnode of the tree. -/
abbrev GivesVnode (r : Nat) (held : Nat → Nat) (m : TreeM Nat) (s : Tree) : Prop :=
  Answers m s (Sound r held) fun w t => Sound r held t ∧ Attached t w

theorem Sound.ramfsCreateVn (h : Sound r held s) (hv : Attached s v) (name : List UInt8)
    (type : VnodeType) : GivesVnode r held (ramfsCreateVn v name type) s := by
  obtain ⟨kids, hwf⟩ := h.wellFormed
  obtain ⟨x, n, hx, hn, hl⟩ := hwf.attached_vnode hv
  rcases hwf.ramfsCreateVn_cases hx hn hl name type with ⟨e, t, hrun, ht⟩ | ⟨hd, t, hrun, hc⟩
  · exact .inr ⟨_, t, hrun, ⟨e, rfl⟩, h.same ht⟩
  · obtain ⟨m, hm, -⟩ := h.root
    exact .inl ⟨_, t, hrun, h.relinked (hc.wellFormed hwf hd) (hc.relinked hn) hc.root
      (Heap.ne_next hm), s.nodes.next, _, hc.node hn, .inr (Heap.ne_zero hn), rfl⟩

theorem Sound.ramfsUnlinkVn (h : Sound r held s) (hv : Attached s v) (name : List UInt8) :
    Answers (ramfsUnlinkVn v name) s (Sound r held) fun _ => Sound r held := by
  obtain ⟨kids, hwf⟩ := h.wellFormed
  obtain ⟨x, n, hx, hn, hl⟩ := hwf.attached_vnode hv
  rcases hwf.ramfsUnlinkVn_cases hx hn hl name with
    ⟨e, hrun⟩ | ⟨-, l₁, c, l₂, cn, t, hrun, -, hr⟩
  · exact .inr ⟨_, s, hrun, ⟨e, rfl⟩, h⟩
  · refine .inl ⟨_, t, hrun, h.relinked (hr.wellFormed hwf) hr.relinked hr.root ?_⟩
    rintro rfl
    exact hwf.shape.root_not_mem _ hr.mem

theorem Sound.vfsLookup (h : Sound r held s) (path : List UInt8) : Looks (vfsLookup r path) s := by
  obtain ⟨kids, hwf⟩ := h.wellFormed
  exact hwf.vfsLookup_ends h.attached path

theorem Sound.vfsResolveParentPath (h : Sound r held s) (path : List UInt8) :
    Answers (vfsResolveParentPath r path) s (Sound r held)
      fun w t => Sound r held t ∧ Attached t w.1 := by
  obtain ⟨kids, hwf⟩ := h.wellFormed
  exact (hwf.vfsResolveParentPath_ends h.attached path).mono
    (fun _ _ ⟨ht, hw⟩ => ⟨h.same ht, ht.attached hw⟩) fun _ _ ⟨he, ht⟩ => ⟨he, h.same ht⟩

theorem Sound.vfsCreateFile (h : Sound r held s) (path : List UInt8) :
    GivesVnode r held (vfsCreateFile r path) s :=
  .ite (fun _ => ends_fail ⟨⟨_, rfl⟩, h⟩) fun _ =>
    (h.vfsResolveParentPath path).bind fun w _ ⟨ht, hw⟩ => ht.ramfsCreateVn hw w.2 .file

theorem Sound.vfsFindOrCreate (h : Sound r held s) (path : List UInt8) (create : Bool) :
    GivesVnode r held (vfsFindOrCreate r path create) s := by
  rcases h.vfsLookup path with ⟨w, _, hrun, rfl, hw⟩ | ⟨_, _, hrun, ⟨e, rfl⟩, rfl⟩
  · exact .step (attempt_run hrun) (ends_pure ⟨h, hw⟩)
  · exact .step (attempt_run hrun)
      (.ite (fun _ => h.vfsCreateFile path) fun _ => ends_fail ⟨⟨e, rfl⟩, h⟩)

/-- What `vfs_mkdir` and `vfs_unlink` test before they go on: the vnode is a directory. -/
theorem Sound.onDirectory {α : Type} {m : TreeM α} {Q : α → Tree → Prop} (h : Sound r held s)
    (hv : Attached s v) (hm : Answers m s (Sound r held) Q) :
    Answers (do
      let d ← vnodes.load v
      if d.type ≠ .dir then failWith .notDirectory else m) s (Sound r held) Q := by
  obtain ⟨kids, hwf⟩ := h.wellFormed
  obtain ⟨x, n, hx, -, -⟩ := hwf.attached_vnode hv
  exact .step (loadVnode hx) (.ite (fun _ => ends_fail ⟨⟨_, rfl⟩, h⟩) fun _ => hm)

theorem Sound.vfsMkdir (h : Sound r held s) (path : List UInt8) :
    Answers (vfsMkdir r path) s (Sound r held) fun _ => Sound r held :=
  (h.vfsResolveParentPath path).bind fun w _ ⟨ht, hw⟩ =>
    ht.onDirectory hw ((ht.ramfsCreateVn hw w.2 .dir).bind fun _ _ hnew => ends_pure hnew.1)

theorem Sound.vfsUnlinkEntry (h : Sound r held s) (path : List UInt8) :
    Answers (vfsUnlinkEntry r path) s (Sound r held) fun _ => Sound r held :=
  (h.vfsResolveParentPath path).bind fun w _ ⟨ht, hw⟩ =>
    ht.onDirectory hw (ht.ramfsUnlinkVn hw w.2)

theorem Sound.vfsUnlink (h : Sound r held s) (path : List UInt8) :
    Answers (vfsUnlink r path) s (Sound r held) fun _ => Sound r held := by
  refine .ite (fun _ => ?_) fun _ => h.vfsUnlinkEntry path
  refine ((h.vfsLookup path).mono (fun _ _ hw => hw) ?_).bind ?_
  · rintro e _ ⟨he, rfl⟩
    exact ⟨he, h⟩
  · rintro w _ ⟨rfl, hw⟩
    exact h.onDirectory hw (h.vfsUnlinkEntry path)

theorem Sound.vnodeRef (h : Sound r held s) (hv : Attached s v) :
    ∃ t, vnodeRef v s = (.ok (), t) ∧ Sound r (Function.update held v (held v + 1)) t := by
  obtain ⟨kids, hwf⟩ := h.wellFormed
  obtain ⟨x, n, hx, -, -⟩ := hwf.attached_vnode hv
  obtain ⟨t, hrun, hN, hroot, ht⟩ := hwf.vnodeRef_run hx
  exact ⟨t, hrun, ⟨kids, ht⟩, by rw [hN, hroot]; exact h.root⟩

theorem Sound.vnodeUnref (h : Sound r held s) (hv : 0 < held v) :
    ∃ t, vnodeUnref v s = (.ok (), t) ∧ Sound r (Function.update held v (held v - 1)) t := by
  obtain ⟨kids, hwf⟩ := h.wellFormed
  obtain ⟨t, hrun, hroot, hkeep, ht⟩ := hwf.vnodeUnref_run hv
  obtain ⟨n, hn, hcache⟩ := h.root
  exact ⟨t, hrun, ⟨kids, ht⟩, n, by rw [hroot]; exact hkeep s.root n (.inl rfl) hn, hcache⟩

end Sound

end CfKernel.Ramfs
