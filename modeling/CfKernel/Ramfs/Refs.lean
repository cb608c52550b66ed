import CfKernel.Ramfs.Shape

/-!
# References to vnodes

`Refs N V root held`: each node has one vnode, and the vnode is counted once for a node that is
linked in the tree and `held v` times for those outside the ramfs that hold it. The cache of a
linked node is its vnode, that of a detached one is empty. With the shape of the tree this is the
invariant of a ramfs; the lemmas here say what the functions on single nodes do to it.
-/

namespace CfKernel.Ramfs

open Lib Lib.Eff Fat Function

/-- How a node and its vnode count each other. -/
structure Counted (root c w held : Nat) (n : RamfsNode) (x : Vnode) : Prop where
  node : x.fsData = c
  type : x.type = n.type
  cache : n.vnodeCache = (if Linked root c n then w else 0)
  count : x.refcnt = held + (if Linked root c n then 1 else 0)
  pos : 0 < x.refcnt

structure Refs (N : Nat → Option RamfsNode) (V : Nat → Option Vnode) (root : Nat)
    (held : Nat → Nat) : Prop where
  vnode : ∀ v x, V v = some x → ∃ n, N x.fsData = some n ∧ Counted root x.fsData v (held v) n x
  node : ∀ p n, N p = some n → ∃ v x, V v = some x ∧ x.fsData = p
  unique : ∀ v w x y, V v = some x → V w = some y → x.fsData = y.fsData → v = w
  dead : ∀ v, V v = none → held v = 0

/-- A change at one node `c` and its vnode `w`: both are gone, or they count each other again. -/
theorem Refs.change {N N' : Nat → Option RamfsNode} {V V' : Nat → Option Vnode} {root c w : Nat}
    {held held' : Nat → Nat} (h : Refs N V root held) (hkeep : Relinked c N N')
    (hV : ∀ u, u ≠ w → V' u = V u) (hheld : ∀ u, u ≠ w → held' u = held u)
    (hpair : ∀ u x, V u = some x → (u = w ↔ x.fsData = c))
    (hnew : N' c = none ∧ V' w = none ∧ held' w = 0 ∨
      ∃ n x, N' c = some n ∧ V' w = some x ∧ Counted root c w (held' w) n x) :
    Refs N' V' root held' := by
  constructor
  case vnode =>
    intro u x hx
    by_cases hu : u = w
    · subst hu
      rcases hnew with ⟨-, hnone, -⟩ | ⟨n, x', hn, hx', hcount⟩
      · rw [hnone] at hx
        cases hx
      · obtain rfl : x = x' := Option.some.inj (hx.symm.trans hx')
        obtain rfl := hcount.node
        exact ⟨n, hn, hcount⟩
    · rw [hV u hu] at hx
      obtain ⟨n, hn, hcount⟩ := h.vnode u x hx
      obtain ⟨ch, sib, hn'⟩ := hkeep.to_new (fun hc => hu ((hpair u x hx).mpr hc)) hn
      rw [hheld u hu]
      exact ⟨_, hn', rfl, hcount.type, hcount.cache, hcount.count, hcount.pos⟩
  case node =>
    intro q n' hn'
    by_cases hq : q = c
    · subst hq
      rcases hnew with ⟨hnone, -, -⟩ | ⟨n, x, -, hx, hcount⟩
      · rw [hnone] at hn'
        cases hn'
      · exact ⟨w, x, hx, hcount.node⟩
    · obtain ⟨n, ch, sib, hn, -⟩ := hkeep.to_old hq hn'
      obtain ⟨v, x, hx, rfl⟩ := h.node q n hn
      exact ⟨v, x, by rw [hV v fun hv => hq ((hpair v x hx).mp hv), hx], rfl⟩
  case unique =>
    have hw : ∀ u x y, u ≠ w → V' u = some x → V' w = some y → x.fsData ≠ y.fsData := by
      intro u x y hu hx hy heq
      rcases hnew with ⟨-, hnone, -⟩ | ⟨n, y', -, hy', hcount⟩
      · rw [hnone] at hy
        cases hy
      · obtain rfl : y = y' := Option.some.inj (hy.symm.trans hy')
        rw [hV u hu] at hx
        exact hu ((hpair u x hx).mpr (heq.trans hcount.node))
    intro u v x y hx hy heq
    by_cases hu : u = w
    · by_contra hne
      subst hu
      exact hw v y x (Ne.symm hne) hy hx heq.symm
    · by_cases hv : v = w
      · subst hv
        exact absurd heq (hw u x y hu hx hy)
      · rw [hV u hu] at hx
        rw [hV v hv] at hy
        exact h.unique u v x y hx hy heq
  case dead =>
    intro u hu
    by_cases huw : u = w
    · subst huw
      rcases hnew with ⟨-, -, hzero⟩ | ⟨n, x, -, hx, -⟩
      · exact hzero
      · rw [hx] at hu
        cases hu
    · rw [hV u huw] at hu
      rw [hheld u huw]
      exact h.dead u hu

theorem Refs.eq_iff {N : Nat → Option RamfsNode} {V : Nat → Option Vnode} {root u v : Nat}
    {held : Nat → Nat} {x y : Vnode} (h : Refs N V root held) (hx : V v = some x)
    (hy : V u = some y) : u = v ↔ y.fsData = x.fsData := by
  constructor
  · rintro rfl
    rw [Option.some.inj (hy.symm.trans hx)]
  · exact h.unique u v y x hy hx

structure WellFormed (s : Tree) (kids : Nat → List Nat) (held : Nat → Nat) : Prop where
  shape : Shape s.nodes.cell s.root kids
  refs : Refs s.nodes.cell s.vnodes.cell s.root held

/-- The tree and the vnodes are the same; allocations may have been made and undone. -/
structure Same (s t : Tree) : Prop where
  nodes : t.nodes.cell = s.nodes.cell
  vnodes : t.vnodes.cell = s.vnodes.cell
  root : t.root = s.root

variable {s t : Tree} {p v c : Nat} {n : RamfsNode} {x : Vnode} {kids : Nat → List Nat}
variable {held : Nat → Nat} {name : List UInt8} {type : VnodeType}

theorem Same.refl (s : Tree) : Same s s := ⟨rfl, rfl, rfl⟩

theorem Same.wellFormed (h : Same s t) (hs : WellFormed s kids held) : WellFormed t kids held :=
  ⟨by rw [h.nodes, h.root]; exact hs.shape, by rw [h.nodes, h.vnodes, h.root]; exact hs.refs⟩

section Steps

section

variable (h : s.nodes.cell p = some n)
include h

theorem loadNode : (nodes.load p : TreeM _) s = (.ok n, s) :=
  Field.load_run (l := nodes) h

theorem storeNode (f : RamfsNode → RamfsNode) :
    ∃ t, (nodes.store p f : TreeM Unit) s = (.ok (), t) ∧
      t.nodes.cell = update s.nodes.cell p (some (f n)) ∧
      t.vnodes = s.vnodes ∧ t.root = s.root :=
  ⟨_, Field.store_run (l := nodes) h f, Heap.cell_edit h f, rfl, rfl⟩

theorem freeNode :
    ∃ t, ramfsNodeFree p s = (.ok (), t) ∧
      t.nodes.cell = update s.nodes.cell p none ∧
      t.vnodes = s.vnodes ∧ t.root = s.root :=
  ⟨_, Field.release_run (l := nodes) h, Heap.cell_free _ _, rfl, rfl⟩

end

section

variable (h : s.vnodes.cell v = some x)
include h

theorem loadVnode : (vnodes.load v : TreeM _) s = (.ok x, s) :=
  Field.load_run (l := vnodes) h

theorem storeVnode (f : Vnode → Vnode) :
    ∃ t, (vnodes.store v f : TreeM Unit) s = (.ok (), t) ∧
      t.vnodes.cell = update s.vnodes.cell v (some (f x)) ∧
      t.nodes = s.nodes ∧ t.root = s.root :=
  ⟨_, Field.store_run (l := vnodes) h f, Heap.cell_edit h f, rfl, rfl⟩

theorem freeVnode :
    ∃ t, (vnodes.release v : TreeM Unit) s = (.ok (), t) ∧
      t.vnodes.cell = update s.vnodes.cell v none ∧
      t.nodes = s.nodes ∧ t.root = s.root :=
  ⟨_, Field.release_run (l := vnodes) h, Heap.cell_free _ _, rfl, rfl⟩

end

theorem clearCache_run (h : s.nodes.cell p = some n) (v : Nat) :
    ∃ t n', clearCache p v s = (.ok (), t) ∧
      t.nodes.cell = update s.nodes.cell p (some n') ∧
      t.vnodes = s.vnodes ∧ t.root = s.root := by
  rw [clearCache, bind_ok (loadNode h)]
  split_ifs with hv
  · obtain ⟨t, hrun, hN, hV, hroot⟩ := storeNode h fun n => { n with vnodeCache := 0 }
    exact ⟨t, _, hrun, hN, hV, hroot⟩
  · exact ⟨s, n, rfl, by rw [← h, update_eq_self], rfl, rfl⟩

section

variable (hv : s.vnodes.cell v = some x)
include hv

theorem ramfsDestroyVnode_run (hn : s.nodes.cell x.fsData = some n) :
    ∃ t, ramfsDestroyVnode v s = (.ok (), t) ∧
      t.nodes.cell = update s.nodes.cell x.fsData none ∧
      t.vnodes.cell = update s.vnodes.cell v (some { x with fsData := 0 }) ∧
      t.root = s.root := by
  rw [ramfsDestroyVnode, bind_ok (loadVnode hv), if_neg (Heap.ne_zero hn)]
  obtain ⟨s₁, n', hrun₁, hN₁, hV₁, hroot₁⟩ := clearCache_run hn v
  rw [← hV₁] at hv
  obtain ⟨s₂, hrun₂, hV₂, hN₂, hroot₂⟩ := storeVnode hv fun v => { v with fsData := 0 }
  have hn₂ : s₂.nodes.cell x.fsData = some n' := by rw [hN₂, hN₁, update_self]
  obtain ⟨s₃, hrun₃, hN₃, hV₃, hroot₃⟩ := freeNode hn₂
  refine ⟨s₃, ?_, ?_, ?_, ?_⟩
  · rw [bind_ok hrun₁, bind_ok hrun₂, hrun₃]
  · rw [hN₃, hN₂, hN₁, update_idem]
  · rw [hV₃, hV₂, hV₁]
  · rw [hroot₃, hroot₂, hroot₁]

theorem vnodeUnref_last (hx : x.refcnt = 1) (hn : s.nodes.cell x.fsData = some n) :
    ∃ t, vnodeUnref v s = (.ok (), t) ∧
      t.nodes.cell = update s.nodes.cell x.fsData none ∧
      t.vnodes.cell = update s.vnodes.cell v none ∧ t.root = s.root := by
  rw [vnodeUnref, bind_ok (loadVnode hv), if_neg (by omega)]
  obtain ⟨s₁, hrun₁, hV₁, hN₁, hroot₁⟩ := storeVnode hv fun v => { v with refcnt := v.refcnt - 1 }
  have hv₁ : s₁.vnodes.cell v = some { x with refcnt := x.refcnt - 1 } := by
    rw [hV₁, update_self]
  rw [← hN₁] at hn
  obtain ⟨s₂, hrun₂, hN₂, hV₂, hroot₂⟩ := ramfsDestroyVnode_run hv₁ hn
  have hv₂ : s₂.vnodes.cell v = some ⟨x.type, x.refcnt - 1, 0⟩ := by rw [hV₂, update_self]
  obtain ⟨s₃, hrun₃, hV₃, hN₃, hroot₃⟩ := freeVnode hv₂
  refine ⟨s₃, ?_, ?_, ?_, ?_⟩
  · rw [bind_ok hrun₁, if_pos (by omega), bind_ok hrun₂, hrun₃]
  · rw [hN₃, hN₂, hN₁]
  · rw [hV₃, hV₂, hV₁, update_idem, update_idem]
  · rw [hroot₃, hroot₂, hroot₁]

theorem vnodeUnref_more (hx : 1 < x.refcnt) :
    ∃ t, vnodeUnref v s = (.ok (), t) ∧ t.nodes = s.nodes ∧
      t.vnodes.cell = update s.vnodes.cell v (some { x with refcnt := x.refcnt - 1 }) ∧
      t.root = s.root := by
  rw [vnodeUnref, bind_ok (loadVnode hv), if_neg (by omega)]
  obtain ⟨t, hrun, hV, hN, hroot⟩ := storeVnode hv fun v => { v with refcnt := v.refcnt - 1 }
  refine ⟨t, ?_, hN, hV, hroot⟩
  rw [bind_ok hrun, if_neg (by omega), pure_run]

end

end Steps

namespace WellFormed

variable (h : WellFormed s kids held)
include h

theorem cached (hn : s.nodes.cell p = some n) (hl : Linked s.root p n) :
    s.vnodes.cell n.vnodeCache = some ⟨n.type, held n.vnodeCache + 1, p⟩ := by
  obtain ⟨v, x, hv, rfl⟩ := h.refs.node p n hn
  obtain ⟨m, hm, -, htype, hcache, hcount, -⟩ := h.refs.vnode v x hv
  obtain rfl : m = n := Option.some.inj (hm.symm.trans hn)
  rw [if_pos hl] at hcache hcount
  rw [hcache, hv, ← htype, ← hcount]

theorem ramfsNodeVnode_run (hn : s.nodes.cell p = some n) (hl : Linked s.root p n) :
    ramfsNodeVnode p s = (.ok n.vnodeCache, s) := by
  rw [ramfsNodeVnode, bind_ok (loadNode hn), if_neg (Heap.ne_zero (h.cached hn hl)), pure_run]

theorem node_of_vnode (hv : s.vnodes.cell v = some x) :
    ∃ n, s.nodes.cell x.fsData = some n ∧ x.type = n.type ∧
      (Linked s.root x.fsData n ∧ n.vnodeCache = v ∨
        ¬ Linked s.root x.fsData n ∧ n.vnodeCache = 0 ∧ 0 < held v) := by
  obtain ⟨n, hn, -, htype, hcache, hcount, hpos⟩ := h.refs.vnode v x hv
  refine ⟨n, hn, htype, ?_⟩
  by_cases hl : Linked s.root x.fsData n
  · rw [if_pos hl] at hcache
    exact .inl ⟨hl, hcache⟩
  · rw [if_neg hl] at hcache hcount
    exact .inr ⟨hl, hcache, by omega⟩

theorem vnodeRef_run (hv : s.vnodes.cell v = some x) :
    ∃ t, vnodeRef v s = (.ok (), t) ∧ t.nodes = s.nodes ∧ t.root = s.root ∧
      WellFormed t kids (update held v (held v + 1)) := by
  obtain ⟨t, hrun, hV, hN, hroot⟩ := storeVnode hv fun v => { v with refcnt := v.refcnt + 1 }
  obtain ⟨n, hn, hcount⟩ := h.refs.vnode v x hv
  refine ⟨t, hrun, hN, hroot, by rw [hN, hroot]; exact h.shape, ?_⟩
  rw [hN, hroot, hV]
  apply h.refs.change (Relinked.of_eq fun _ _ => rfl) (w := v) (c := x.fsData)
  · exact fun u hu => update_of_ne hu _ _
  · exact fun u hu => update_of_ne hu _ _
  · exact fun u y hy => h.refs.eq_iff hv hy
  · refine .inr ⟨n, _, hn, update_self .., rfl, hcount.type, hcount.cache, ?_,
      Nat.succ_pos _⟩
    rw [update_self]
    change x.refcnt + 1 = _
    rw [hcount.count]
    omega

/-- Someone outside gives a reference back; the last one takes a detached node with it. -/
theorem vnodeUnref_run (hpos : 0 < held v) :
    ∃ t, vnodeUnref v s = (.ok (), t) ∧ t.root = s.root ∧
      (∀ p n, Linked s.root p n → s.nodes.cell p = some n → t.nodes.cell p = some n) ∧
      WellFormed t kids (update held v (held v - 1)) := by
  obtain ⟨x, hv⟩ : ∃ x, s.vnodes.cell v = some x := by
    by_contra hnone
    have hdead := h.refs.dead v (Option.eq_none_iff_forall_ne_some.mpr fun x hx => hnone ⟨x, hx⟩)
    omega
  obtain ⟨n, hn, hcount⟩ := h.refs.vnode v x hv
  by_cases hlast : x.refcnt = 1
  · -- a linked node would count one more
    have hnot : ¬ Linked s.root x.fsData n := by
      intro hl
      have := hcount.count
      rw [if_pos hl] at this
      omega
    have hone : held v = 1 := by
      have := hcount.count
      rw [if_neg hnot] at this
      omega
    obtain ⟨t, hrun, hN, hV, hroot⟩ := vnodeUnref_last hv hlast hn
    refine ⟨t, hrun, hroot, ?_, ?_, ?_⟩
    · intro p m hl hm
      have hp : p ≠ x.fsData := by
        rintro rfl
        obtain rfl := Option.some.inj (hm.symm.trans hn)
        exact hnot hl
      rw [hN, update_of_ne hp, hm]
    · rw [hN, hroot]
      rw [Linked, not_or, not_not] at hnot
      exact h.shape.remove hn hnot.2 hnot.1
    · rw [hN, hroot, hV]
      apply h.refs.change (w := v) (c := x.fsData)
      · exact Relinked.of_eq fun q hq => update_of_ne hq _ _
      · exact fun u hu => update_of_ne hu _ _
      · exact fun u hu => update_of_ne hu _ _
      · exact fun u y hy => h.refs.eq_iff hv hy
      · rw [update_self, update_self, update_self, hone]
        exact .inl ⟨rfl, rfl, rfl⟩
  · have hmore : 1 < x.refcnt := by
      have := hcount.pos
      omega
    obtain ⟨t, hrun, hN, hV, hroot⟩ := vnodeUnref_more hv hmore
    refine ⟨t, hrun, hroot, fun p m _ hm => by rw [hN, hm], by rw [hN, hroot]; exact h.shape, ?_⟩
    rw [hN, hroot, hV]
    apply h.refs.change (Relinked.of_eq fun _ _ => rfl) (w := v) (c := x.fsData)
    · exact fun u hu => update_of_ne hu _ _
    · exact fun u hu => update_of_ne hu _ _
    · exact fun u y hy => h.refs.eq_iff hv hy
    · have hcnt := hcount.count
      refine .inr ⟨n, _, hn, update_self .., rfl, hcount.type, hcount.cache, ?_, ?_⟩
      · rw [update_self]
        change x.refcnt - 1 = _
        omega
      · change 0 < x.refcnt - 1
        omega

theorem length_kids_lt (p : Nat) : (kids p).length < s.nodes.next := by
  have hsub : (kids p).toFinset ⊆ Finset.Ico 1 s.nodes.next := by
    intro c hc
    obtain ⟨n, hn, -⟩ := h.shape.child p c (List.mem_toFinset.mp hc)
    exact Finset.mem_Ico.mpr ⟨Nat.pos_of_ne_zero (Heap.ne_zero hn), Heap.lt_next hn⟩
  have hcard := Finset.card_le_card hsub
  rw [List.toFinset_card_of_nodup (h.shape.nodup p), Nat.card_Ico] at hcard
  have := s.nodes.next_pos
  omega

end WellFormed

end CfKernel.Ramfs
