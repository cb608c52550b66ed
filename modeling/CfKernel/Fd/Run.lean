import CfKernel.Fd.Calls

/-!
# Runs of system calls

In every state between two system calls the counts are exact: a file counts its slots, a vnode its
open files and its place in the tree. An object is there as long as something counts it, and each
one is freed once.
-/

namespace CfKernel.Fd

open Lib Lib.Eff Fat Ramfs

/-- The nodes that are reached from the root along the lists of children. -/
inductive InTree (t : Tree) : Nat → Prop where
  | root : InTree t t.root
  | child {q p : Nat} {n : RamfsNode} {l : List Nat} : InTree t q → t.nodes.cell q = some n →
      Path (Next t.nodes.cell) n.children l 0 → p ∈ l → InTree t p

/-- How often each object was freed: once if it is gone, else never. -/
def FreedOnce {α : Type} (h : Heap α) : Prop :=
  ∀ a, h.freed a = if 0 < a ∧ a < h.next ∧ h.cell a = none then 1 else 0

structure ExactCounts (k : Kernel) : Prop where
  file : ∀ f x, k.files.cell f = some x → x.refcount = k.slots f
  vnode : ∀ v x, k.tree.vnodes.cell v = some x →
    (InTree k.tree x.fsData → x.refcnt = k.openOn v + 1) ∧
    (¬ InTree k.tree x.fsData → x.refcnt = k.openOn v)
  fileAlive : ∀ f, k.files.cell f ≠ none ↔ 0 < k.slots f
  vnodeAlive : ∀ v, k.tree.vnodes.cell v ≠ none ↔
    0 < k.openOn v ∨ ∃ p n, InTree k.tree p ∧ k.tree.nodes.cell p = some n ∧ n.vnodeCache = v
  nodeAlive : ∀ p, k.tree.nodes.cell p ≠ none ↔
    ∃ v x, k.tree.vnodes.cell v = some x ∧ x.fsData = p
  once : FreedOnce k.tree.vnodes ∧ FreedOnce k.tree.nodes ∧ FreedOnce k.files
  slot : ∀ i, (k.fds i).used = true →
    ∃ x y, k.files.cell (k.fds i).file = some x ∧ k.tree.vnodes.cell x.vn = some y
  link : ∀ p, InTree k.tree p → ∃ n, k.tree.nodes.cell p = some n ∧
    (∃ y, k.tree.vnodes.cell n.vnodeCache = some y ∧ y.fsData = p) ∧
    (∃ l, Path (Next k.tree.nodes.cell) n.children l 0 ∧
      ∀ c ∈ l, ∃ m, k.tree.nodes.cell c = some m ∧ m.parent = p) ∧
    (n.parent ≠ 0 → k.tree.nodes.cell n.parent ≠ none)

variable {k : Kernel} {t : Tree} {kids : Nat → List Nat} {held : Nat → Nat} {p q r : Nat}
variable {n : RamfsNode} {owed : Nat → Nat}

section InTree

variable (h : WellFormed t kids held)
include h

theorem list_unique {l : List Nat} (hn : t.nodes.cell p = some n)
    (hl : Path (Next t.nodes.cell) n.children l 0) : l = kids p := by
  apply hl.unique _ _ (h.shape.chain p n hn)
  · rintro a b b' ⟨m, hm, rfl⟩ ⟨m', hm', rfl⟩
    rw [Option.some.inj (hm.symm.trans hm')]
  · rintro b ⟨m, hm, -⟩
    rw [t.nodes.cell_zero] at hm
    cases hm

theorem linked_of_inTree (hp : InTree t p) : ∃ n, t.nodes.cell p = some n ∧ Linked t.root p n := by
  cases hp with
  | root =>
    obtain ⟨n, hn, -⟩ := h.shape.rootNode
    exact ⟨n, hn, .inl rfl⟩
  | child hq hm hl hp =>
    rw [list_unique h hm hl] at hp
    obtain ⟨n, hn, -⟩ := h.shape.child _ p hp
    exact ⟨n, hn, .inr (h.shape.linked_of_mem hp hn)⟩

theorem inTree_of_linked (hn : t.nodes.cell p = some n) (hl : Linked t.root p n) : InTree t p := by
  induction p using Nat.strong_induction_on generalizing n with
  | _ p ih =>
    rcases hl with rfl | hpar
    · exact .root
    have hmem := h.shape.parent p n hn hpar
    obtain ⟨m, hm⟩ := h.shape.live_of_mem hmem
    obtain ⟨-, -, -, -, hlt⟩ := h.shape.child _ p hmem
    have hlm := (h.shape.onlyDirs _ m hm (List.ne_nil_of_mem hmem)).2
    exact .child (ih _ hlt hm hlm) hm (h.shape.chain _ m hm) hmem

theorem inTree_iff (hn : t.nodes.cell p = some n) : InTree t p ↔ Linked t.root p n := by
  constructor
  · intro hp
    obtain ⟨m, hm, hl⟩ := linked_of_inTree h hp
    rwa [Option.some.inj (hn.symm.trans hm)]
  · exact inTree_of_linked h hn

end InTree

theorem Inv.exactCounts (h : Inv (fun _ => 0) k) : ExactCounts k := by
  obtain ⟨kids, hwf⟩ := h.sound.wellFormed
  have hvnode : ∀ v, 0 < k.openOn v → ∃ y, k.tree.vnodes.cell v = some y := by
    intro v hv
    by_contra hnone
    have := hwf.refs.dead v (Option.eq_none_iff_forall_ne_some.mpr fun y hy => hnone ⟨y, hy⟩)
    omega
  constructor
  case file => exact fun f x hx => (h.count f x hx).1.trans (Nat.add_zero _)
  case vnode =>
    intro v x hx
    obtain ⟨n, hn, hcount⟩ := hwf.refs.vnode v x hx
    constructor
    · intro hin
      rw [hcount.count, if_pos ((inTree_iff hwf hn).mp hin)]
    · intro hout
      rw [hcount.count, if_neg (mt (inTree_iff hwf hn).mpr hout), Nat.add_zero]
  case fileAlive =>
    intro f
    constructor
    · intro hne
      obtain ⟨x, hx⟩ := Option.ne_none_iff_exists'.mp hne
      obtain ⟨hcount, hpos⟩ := h.count f x hx
      omega
    · intro hpos hnone
      have := (h.dead f hnone).1
      omega
  case vnodeAlive =>
    intro v
    constructor
    · intro hne
      obtain ⟨x, hx⟩ := Option.ne_none_iff_exists'.mp hne
      obtain ⟨n, hn, -, ⟨hl, hcache⟩ | ⟨-, -, hpos⟩⟩ := hwf.node_of_vnode hx
      · exact .inr ⟨x.fsData, n, (inTree_iff hwf hn).mpr hl, hn, hcache⟩
      · exact .inl hpos
    · rintro (hpos | ⟨p, n, hin, hn, rfl⟩)
      · obtain ⟨y, hy⟩ := hvnode v hpos
        rw [hy]
        exact Option.some_ne_none y
      · rw [hwf.cached hn ((inTree_iff hwf hn).mp hin)]
        exact Option.some_ne_none _
  case nodeAlive =>
    intro p
    constructor
    · intro hne
      obtain ⟨n, hn⟩ := Option.ne_none_iff_exists'.mp hne
      exact hwf.refs.node p n hn
    · rintro ⟨v, x, hx, rfl⟩
      obtain ⟨n, hn, -⟩ := hwf.refs.vnode v x hx
      rw [hn]
      exact Option.some_ne_none n
  case once => exact ⟨k.tree.vnodes.freed_eq, k.tree.nodes.freed_eq, k.files.freed_eq⟩
  case slot =>
    intro i hi
    obtain ⟨x, hx⟩ := h.live_of_used hi
    obtain ⟨y, hy⟩ := hvnode x.vn (openOn_pos hx)
    exact ⟨x, y, hx, hy⟩
  case link =>
    intro p hin
    obtain ⟨n, hn, hl⟩ := linked_of_inTree hwf hin
    refine ⟨n, hn, ⟨_, hwf.cached hn hl, rfl⟩, ⟨kids p, hwf.shape.chain p n hn, ?_⟩, ?_⟩
    · intro c hc
      obtain ⟨m, hm, hpar, -⟩ := hwf.shape.child p c hc
      exact ⟨m, hm, hpar⟩
    · intro hpar
      obtain ⟨m, hm⟩ := hwf.shape.live_of_mem (hwf.shape.parent p n hn hpar)
      rw [hm]
      exact Option.some_ne_none m

theorem sound_dirStep {s : Tree} {req : DirRequest} (h : Sound r (fun _ => 0) s)
    (hreq : OnVnode req s) : Sound r (fun _ => 0) (dirStep req s) := by
  obtain ⟨kids, hwf⟩ := h.wellFormed
  obtain ⟨x, hx⟩ := Option.ne_none_iff_exists'.mp hreq
  have hatt : Attached s req.dir := by
    obtain ⟨n, hn, -, ⟨hl, hcache⟩ | ⟨-, -, hpos⟩⟩ := hwf.node_of_vnode hx
    · exact ⟨x.fsData, n, hn, hl, hcache⟩
    · cases hpos
  cases req with
  | lookup dir name =>
    replace hatt : Attached s dir := hatt
    obtain ⟨y, n, hy, hn, hl⟩ := hwf.attached_vnode hatt
    rcases hwf.ramfsLookupVn_cases hy hn hl name with ⟨e, hrun⟩ | ⟨c, m, -, -, hrun⟩
    · rwa [dirStep, DirRequest.run, bind_error hrun]
    · rw [dirStep, DirRequest.run, bind_ok hrun]
      exact h
  | create dir name type =>
    replace hatt : Attached s dir := hatt
    rcases h.ramfsCreateVn hatt name type with ⟨w, t, hrun, ht, -⟩ | ⟨_, t, hrun, -, ht⟩
    · rw [dirStep, DirRequest.run, bind_ok hrun]
      exact ht
    · rwa [dirStep, DirRequest.run, bind_error hrun]
  | unlink dir name =>
    replace hatt : Attached s dir := hatt
    obtain ⟨out, t, hrun, -, ht⟩ := (h.ramfsUnlinkVn hatt name).noFault
    rw [dirStep, DirRequest.run, hrun]
    exact ht

theorem sound_mounted {alloc : Nat → Bool} {root : Nat} {t₀ : Tree}
    (hmount : mountRamfs (unmounted alloc) = (.ok root, t₀)) : Sound root (fun _ => 0) t₀ := by
  rcases mountRamfs_cases alloc with ⟨e, t, hrun⟩ | ⟨t, hrun, hroot, hN, hV⟩
  · cases hrun.symm.trans hmount
  · cases hrun.symm.trans hmount
    refine ⟨⟨_, wellFormed_mounted hroot hN hV⟩, ⟨[], .dir, 1, 0, 0, 0⟩, ?_, rfl⟩
    rw [hroot, hN, Function.update_self]

theorem inv_booted {root : Nat} (h : Sound root (fun _ => 0) t) :
    Inv (fun _ => 0) (booted t root) := by
  have hslots : ∀ f, (booted t root).slots f = 0 := fun f =>
    entryCount_eq_zero fun i => holds_unused rfl f
  have hopen : (booted t root).openOn = fun _ => 0 := funext fun v => Heap.count_empty _
  refine ⟨?_, ?_, fun f _ => ⟨hslots f, rfl⟩, fun i _ => rfl⟩
  · rw [hopen]
    exact h
  · intro f x hx
    cases hx

section Reached

variable {alloc : Nat → Bool} {root : Nat} {t₀ : Tree}

theorem inv_reached (hmount : mountRamfs (unmounted alloc) = (.ok root, t₀))
    (hdirs : Reach dirStep OnVnode t₀ t)
    (hrun : Reach fdStep (fun _ _ => True) (booted t root) k) : Inv (fun _ => 0) k := by
  have ht : Sound root (fun _ => 0) t :=
    hdirs.invariant (Sound root fun _ => 0) (sound_mounted hmount) fun r s => sound_dirStep
  apply hrun.invariant (Inv fun _ => 0) (inv_booted ht)
  rintro ⟨pid, r⟩ k h -
  obtain ⟨out, k', hrun, -, hinv⟩ := h.run_keeps pid r
  rw [fdStep, hrun]
  exact hinv

/-- The counts are exact between any two system calls, and no call touches an object that is gone.
The root is a ramfs on which any directories and files have been made. -/
theorem reference_counts_exact (hmount : mountRamfs (unmounted alloc) = (.ok root, t₀))
    (hdirs : Reach dirStep OnVnode t₀ t) (hrun : Reach fdStep (fun _ _ => True) (booted t root) k) :
    ExactCounts k ∧ ∀ pid r, (FdRequest.run pid r k).1 ≠ .error .fault := by
  have hk := inv_reached hmount hdirs hrun
  refine ⟨hk.exactCounts, fun pid r => ?_⟩
  obtain ⟨out, k', hrun, hout, -⟩ := hk.run_keeps pid r
  rw [hrun]
  exact hout

end Reached

def openA : FdRequest :=
  .openPath ⟨fun a => if a = 1 then some 0x2F else if a = 2 then some 0x61 else some 0, 1, [0x2F],
    fun _ => 0⟩ true

def opened : Kernel :=
  fdStep (5, openA) (booted (mountRamfs (unmounted fun _ => true)).2 1)

theorem reference_counts_exact_opened :
    ExactCounts opened ∧ opened.fds (5, ⟨3, by decide⟩) = ⟨1, true⟩ := by
  have hmount : mountRamfs (unmounted fun _ => true) =
      (.ok 1, (mountRamfs (unmounted fun _ => true)).2) := rfl
  exact ⟨(reference_counts_exact hmount .start (.step (5, openA) .start trivial)).1,
    by decide +kernel⟩

end CfKernel.Fd
