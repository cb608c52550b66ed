import CfKernel.Ramfs.Refs

/-!
# Directories of a ramfs

What `ramfs_lookup_vn`, `ramfs_readdir_vn`, `ramfs_create_vn` and `ramfs_unlink_vn` do on a
directory that is linked in the tree. A linked node has its vnode, so that a lookup never has to
make one.
-/

namespace CfKernel.Ramfs

open Lib Lib.Eff Fat Function

variable {s t : Tree} {p v c : Nat} {n : RamfsNode} {x : Vnode} {kids : Nat → List Nat}
variable {held : Nat → Nat} {name : List UInt8} {type : VnodeType}

/-- `v` is the vnode of the directory at `p`, which is linked in the tree. -/
structure IsDir (s : Tree) (v p : Nat) (n : RamfsNode) : Prop where
  vnode : ∃ x, s.vnodes.cell v = some x ∧ x.type = .dir ∧ x.fsData = p
  node : s.nodes.cell p = some n
  linked : Linked s.root p n

theorem IsDir.type_eq (h : WellFormed s kids held) (hd : IsDir s v p n) : n.type = .dir := by
  obtain ⟨x, hx, htype, rfl⟩ := hd.vnode
  obtain ⟨m, hm, heq, -⟩ := h.node_of_vnode hx
  obtain rfl : m = n := Option.some.inj (hm.symm.trans hd.node)
  rw [← heq, htype]

section Lookup

theorem findChildFrom_spec (name : List UInt8) {k child : Nat} {l : List Nat}
    (hpath : Path (Next s.nodes.cell) child l 0) (hlen : l.length < k) :
    (∃ c ∈ l, ∃ n, s.nodes.cell c = some n ∧ n.name = name ∧
      findChildFrom name k child s = (.ok c, s)) ∨
    (∀ c ∈ l, ∀ n, s.nodes.cell c = some n → n.name ≠ name) ∧
      findChildFrom name k child s = (.ok 0, s) := by
  induction l generalizing k child with
  | nil =>
    obtain ⟨k, rfl⟩ := Nat.exists_eq_succ_of_ne_zero (by omega : k ≠ 0)
    exact .inr ⟨by simp, by rw [findChildFrom, if_pos (path_nil.mp hpath)]; rfl⟩
  | cons a l ih =>
    obtain ⟨k, rfl⟩ := Nat.exists_eq_succ_of_ne_zero (by omega : k ≠ 0)
    obtain ⟨rfl, b, ⟨m, hm, rfl⟩, hrest⟩ := hpath
    rw [findChildFrom, if_neg (Heap.ne_zero hm), bind_ok (loadNode hm)]
    split_ifs with hname
    · exact .inl ⟨child, List.mem_cons_self, m, hm, hname, rfl⟩
    rw [List.length_cons] at hlen
    rcases ih (k := k) hrest (by omega) with ⟨c, hc, n, hn, heq, hrun⟩ | ⟨hnone, hrun⟩
    · exact .inl ⟨c, List.mem_cons_of_mem _ hc, n, hn, heq, hrun⟩
    · refine .inr ⟨fun c hc n hn => ?_, hrun⟩
      rcases List.mem_cons.mp hc with rfl | hc
      · obtain rfl : n = m := Option.some.inj (hn.symm.trans hm)
        exact hname
      · exact hnone c hc n hn

variable (h : WellFormed s kids held)
include h

theorem WellFormed.ramfsFindChild_spec (hp : s.nodes.cell p = some n) (name : List UInt8) :
    (∃ c, Finds s.nodes.cell kids p name c ∧ ramfsFindChild p name s = (.ok c, s)) ∨
    (∀ c, ¬ Finds s.nodes.cell kids p name c) ∧ ramfsFindChild p name s = (.ok 0, s) := by
  rw [ramfsFindChild, bind_ok (loadNode hp)]
  rcases findChildFrom_spec name (h.shape.chain p n hp) (h.length_kids_lt p) with
    ⟨c, hc, m, hm, hname, hrun⟩ | ⟨hnone, hrun⟩
  · exact .inl ⟨c, ⟨hc, m, hm, hname⟩, hrun⟩
  · exact .inr ⟨fun c hc => hnone c hc.1 _ hc.2.choose_spec.1 hc.2.choose_spec.2, hrun⟩

theorem WellFormed.linked_of_finds (hc : Finds s.nodes.cell kids p name c)
    (hn : s.nodes.cell c = some n) : Linked s.root c n :=
  .inr (h.shape.linked_of_mem hc.1 hn)

theorem WellFormed.validName_of_finds (hc : Finds s.nodes.cell kids p name c) : ValidName name := by
  obtain ⟨hmem, n, hn, rfl⟩ := hc
  exact (h.shape.parent_of_mem hmem hn).2

theorem WellFormed.parent_linked (hn : s.nodes.cell p = some n) (hl : Linked s.root p n) :
    ∃ m, s.nodes.cell (parentOrSelf p n.parent) = some m ∧
      Linked s.root (parentOrSelf p n.parent) m := by
  by_cases hpar : n.parent = 0
  · rw [parentOrSelf, if_pos hpar]
    exact ⟨n, hn, hl⟩
  · rw [parentOrSelf, if_neg hpar]
    have hmem := h.shape.parent p n hn hpar
    obtain ⟨m, hm⟩ := h.shape.live_of_mem hmem
    exact ⟨m, hm, (h.shape.onlyDirs _ m hm (List.ne_nil_of_mem hmem)).2⟩

theorem WellFormed.vnode_run (hn : s.nodes.cell p = some n) (hl : Linked s.root p n) :
    (ramfsNodeVnode p >>= orOutOfMemory) s = (.ok n.vnodeCache, s) := by
  rw [bind_ok (h.ramfsNodeVnode_run hn hl), orOutOfMemory, if_neg (Heap.ne_zero (h.cached hn hl))]
  rfl

omit h in
theorem IsDir.lookup_run (hd : IsDir s v p n) (name : List UInt8) :
    ramfsLookupVn v name s = (if name = dot then pure v
      else if name = dotdot then ramfsLookupParent p else ramfsLookupChild p name) s := by
  obtain ⟨x, hx, htype, rfl⟩ := hd.vnode
  rw [ramfsLookupVn, bind_ok (loadVnode hx), if_neg (not_not.mpr htype),
    if_neg (Heap.ne_zero hd.node)]

omit h in
theorem IsDir.lookup_dot (hd : IsDir s v p n) : ramfsLookupVn v dot s = (.ok v, s) := by
  rw [hd.lookup_run, if_pos rfl, pure_run]

theorem IsDir.lookup_dotdot (hd : IsDir s v p n) :
    ∃ m, s.nodes.cell (parentOrSelf p n.parent) = some m ∧
      Linked s.root (parentOrSelf p n.parent) m ∧
      ramfsLookupVn v dotdot s = (.ok m.vnodeCache, s) := by
  obtain ⟨m, hm, hl⟩ := h.parent_linked hd.node hd.linked
  refine ⟨m, hm, hl, ?_⟩
  rw [hd.lookup_run, if_neg (by decide), if_pos rfl, ramfsLookupParent, bind_ok (loadNode hd.node),
    h.vnode_run hm hl]

theorem IsDir.lookup_found {m : RamfsNode} (hd : IsDir s v p n)
    (hc : Finds s.nodes.cell kids p name c) (hm : s.nodes.cell c = some m) :
    ramfsLookupVn v name s = (.ok m.vnodeCache, s) := by
  obtain ⟨-, -, hdot, hdotdot⟩ := h.validName_of_finds hc
  rw [hd.lookup_run, if_neg hdot, if_neg hdotdot, ramfsLookupChild, bind_run]
  rcases h.ramfsFindChild_spec hd.node name with ⟨c', hc', hrun⟩ | ⟨hnone, -⟩
  · cases h.shape.distinct p name c c' hc hc'
    rw [hrun, andThen_ok, if_neg (Heap.ne_zero hm), h.vnode_run hm (h.linked_of_finds hc hm)]
  · exact absurd hc (hnone c)

theorem IsDir.lookup_missing (hd : IsDir s v p n) (hdot : name ≠ dot) (hdotdot : name ≠ dotdot)
    (hnone : ∀ c, ¬ Finds s.nodes.cell kids p name c) :
    ramfsLookupVn v name s = (.error (.code .notFound), s) := by
  rw [hd.lookup_run, if_neg hdot, if_neg hdotdot, ramfsLookupChild, bind_run]
  rcases h.ramfsFindChild_spec hd.node name with ⟨c, hc, -⟩ | ⟨-, hrun⟩
  · exact absurd hc (hnone c)
  · rw [hrun, andThen_ok, if_pos rfl]
    rfl

theorem IsDir.lookup_cases (hd : IsDir s v p n) (name : List UInt8) :
    ramfsLookupVn v name s = (.error (.code .notFound), s) ∨
    ∃ c m, s.nodes.cell c = some m ∧ Linked s.root c m ∧
      ramfsLookupVn v name s = (.ok m.vnodeCache, s) := by
  by_cases hdot : name = dot
  · obtain ⟨x, hx, -, rfl⟩ := hd.vnode
    obtain ⟨m, hm, -, ⟨hl, hcache⟩ | ⟨hl, -⟩⟩ := h.node_of_vnode hx
    · exact .inr ⟨x.fsData, m, hm, hl, by rw [hdot, hd.lookup_dot, hcache]⟩
    · obtain rfl : m = n := Option.some.inj (hm.symm.trans hd.node)
      exact absurd hd.linked hl
  by_cases hdotdot : name = dotdot
  · obtain ⟨m, hm, hl, hrun⟩ := hd.lookup_dotdot h
    exact .inr ⟨_, m, hm, hl, hdotdot ▸ hrun⟩
  by_cases hc : ∃ c, Finds s.nodes.cell kids p name c
  · obtain ⟨c, hc⟩ := hc
    obtain ⟨m, hm, -⟩ := h.shape.child p c hc.1
    exact .inr ⟨c, m, hm, h.linked_of_finds hc hm, hd.lookup_found h hc hm⟩
  · exact .inl (hd.lookup_missing h hdot hdotdot fun c hf => hc ⟨c, hf⟩)

theorem WellFormed.ramfsLookupVn_cases (hv : s.vnodes.cell v = some x)
    (hn : s.nodes.cell x.fsData = some n) (hl : Linked s.root x.fsData n) (name : List UInt8) :
    (∃ e, ramfsLookupVn v name s = (.error (.code e), s)) ∨
    ∃ c m, s.nodes.cell c = some m ∧ Linked s.root c m ∧
      ramfsLookupVn v name s = (.ok m.vnodeCache, s) := by
  by_cases htype : x.type = .dir
  · exact (IsDir.lookup_cases h ⟨⟨x, hv, htype, rfl⟩, hn, hl⟩ name).imp (fun hrun => ⟨_, hrun⟩) id
  · left
    rw [ramfsLookupVn, bind_ok (loadVnode hv), if_pos htype]
    exact ⟨_, rfl⟩

end Lookup

section Readdir

theorem readdirFrom_spec {k child current index : Nat} {l : List Nat}
    (hpath : Path (Next s.nodes.cell) child l 0) (hlen : l.length < k) (hle : current ≤ index) :
    (l.length ≤ index - current ∧
      readdirFrom index k current child s = (.error (.code .notFound), s)) ∨
    ∃ c m, l[index - current]? = some c ∧ s.nodes.cell c = some m ∧
      readdirFrom index k current child s = (.ok (m.name, m.type), s) := by
  induction l generalizing k child current with
  | nil =>
    obtain ⟨k, rfl⟩ := Nat.exists_eq_succ_of_ne_zero (by omega : k ≠ 0)
    exact .inl ⟨Nat.zero_le _, by rw [readdirFrom, if_pos (path_nil.mp hpath)]; rfl⟩
  | cons a l ih =>
    obtain ⟨k, rfl⟩ := Nat.exists_eq_succ_of_ne_zero (by omega : k ≠ 0)
    obtain ⟨rfl, b, ⟨m, hm, rfl⟩, hrest⟩ := hpath
    rw [readdirFrom, if_neg (Heap.ne_zero hm), bind_ok (loadNode hm)]
    by_cases hcur : current = index
    · rw [if_neg (not_not.mpr hcur)]
      exact .inr ⟨child, m, by rw [hcur, Nat.sub_self]; rfl, hm, rfl⟩
    rw [if_pos hcur]
    rw [List.length_cons] at hlen
    have hsub : index - current = (index - (current + 1)) + 1 := by omega
    have hle' : current + 1 ≤ index := by omega
    rcases ih (k := k) hrest (by omega) hle' with ⟨hout, hrun⟩ | ⟨c, m', hc, hm', hrun⟩
    · exact .inl ⟨by rw [List.length_cons]; omega, hrun⟩
    · exact .inr ⟨c, m', by rw [hsub, List.getElem?_cons_succ, hc], hm', hrun⟩

theorem IsDir.readdir (h : WellFormed s kids held) (hd : IsDir s v p n) (index : Nat) :
    ((kids p).length ≤ index ∧ ramfsReaddirVn v index s = (.error (.code .notFound), s)) ∨
    ∃ c m, (kids p)[index]? = some c ∧ s.nodes.cell c = some m ∧
      ramfsReaddirVn v index s = (.ok (m.name, m.type), s) := by
  obtain ⟨x, hx, htype, rfl⟩ := hd.vnode
  rw [ramfsReaddirVn, bind_ok (loadVnode hx), if_neg (not_not.mpr htype),
    if_neg (Heap.ne_zero hd.node), bind_ok (loadNode hd.node)]
  exact readdirFrom_spec (h.shape.chain _ n hd.node) (h.length_kids_lt _) (Nat.zero_le index)

end Readdir

section Create

theorem allocate_run {α : Type} (a b : TreeM α) (s : Tree) :
    (do if ← allocate then a else b : TreeM α) s =
      (if s.alloc 0 = true then a else b) { s with alloc := fun n => s.alloc (n + 1) } := rfl

theorem vnodeCreate_cases (type : VnodeType) (p : Nat) (s : Tree) :
    (∃ t, vnodeCreate type p s = (.ok 0, t) ∧ Same s t) ∨
    ∃ t, vnodeCreate type p s = (.ok s.vnodes.next, t) ∧ t.nodes.cell = s.nodes.cell ∧
      t.vnodes.cell = update s.vnodes.cell s.vnodes.next (some ⟨type, 1, p⟩) ∧
      t.root = s.root := by
  rw [vnodeCreate, allocate_run]
  split_ifs with ha
  · exact .inr ⟨_, rfl, rfl, rfl, rfl⟩
  · exact .inl ⟨_, rfl, rfl, rfl, rfl⟩

theorem ramfsNodeVnode_cases (hn : s.nodes.cell c = some n) (hcache : n.vnodeCache = 0) :
    (∃ t, ramfsNodeVnode c s = (.ok 0, t) ∧ Same s t) ∨
    ∃ t, ramfsNodeVnode c s = (.ok s.vnodes.next, t) ∧
      t.nodes.cell = update s.nodes.cell c (some { n with vnodeCache := s.vnodes.next }) ∧
      t.vnodes.cell = update s.vnodes.cell s.vnodes.next (some ⟨n.type, 1, c⟩) ∧
      t.root = s.root := by
  rw [ramfsNodeVnode, bind_ok (loadNode hn), if_pos hcache, bind_run]
  rcases vnodeCreate_cases n.type c s with ⟨s₁, hrun₁, hsame⟩ | ⟨s₁, hrun₁, hN₁, hV₁, hroot₁⟩
  · obtain ⟨s₂, hrun₂, hN₂, hV₂, hroot₂⟩ := storeNode (s := s₁) (by rw [hsame.nodes, hn])
      fun n => { n with vnodeCache := 0 }
    refine .inl ⟨s₂, by rw [hrun₁, andThen_ok, bind_ok hrun₂, pure_run], ?_, ?_, ?_⟩
    · rw [hN₂, hsame.nodes, ← hcache, ← hn, update_eq_self]
    · rw [hV₂, hsame.vnodes]
    · rw [hroot₂, hsame.root]
  · obtain ⟨s₂, hrun₂, hN₂, hV₂, hroot₂⟩ := storeNode (s := s₁) (by rw [hN₁, hn])
      fun n => { n with vnodeCache := s.vnodes.next }
    refine .inr ⟨s₂, by rw [hrun₁, andThen_ok, bind_ok hrun₂, pure_run], ?_, ?_, ?_⟩
    · rw [hN₂, hN₁]
    · rw [hV₂, hV₁]
    · rw [hroot₂, hroot₁]

theorem ramfsNodeCreate_cases (name : List UInt8) (type : VnodeType) (s : Tree) :
    (∃ t, ramfsNodeCreate name type s = (.ok 0, t) ∧ Same s t) ∨
    ∃ t, ramfsNodeCreate name type s = (.ok s.nodes.next, t) ∧
      t.nodes.cell = update s.nodes.cell s.nodes.next (some ⟨name, type, 0, 0, 0, 0⟩) ∧
      t.vnodes = s.vnodes ∧ t.root = s.root := by
  rw [ramfsNodeCreate, allocate_run]
  split_ifs with ha
  · rw [allocate_run]
    split_ifs with ha'
    · exact .inr ⟨_, rfl, rfl, rfl, rfl⟩
    · exact .inl ⟨_, rfl, rfl, rfl, rfl⟩
  · exact .inl ⟨_, rfl, rfl, rfl, rfl⟩

theorem attachChild_cases {pn : RamfsNode} (hn : s.nodes.cell c = some ⟨name, type, 0, 0, 0, 0⟩)
    (hp : s.nodes.cell p = some pn) (hpc : p ≠ c) :
    (∃ t, attachChild p c s = (.error (.code .outOfMemory), t) ∧
      t.nodes.cell = update s.nodes.cell c none ∧
      t.vnodes.cell = s.vnodes.cell ∧ t.root = s.root) ∨
    ∃ t, attachChild p c s = (.ok s.vnodes.next, t) ∧
      t.nodes.cell = update (update s.nodes.cell c
        (some ⟨name, type, s.vnodes.next, p, pn.children, 0⟩)) p
          (some { pn with children := c }) ∧
      t.vnodes.cell = update s.vnodes.cell s.vnodes.next (some ⟨type, 1, c⟩) ∧
      t.root = s.root := by
  rw [attachChild, bind_run]
  obtain ⟨s₁, hrun₁, hN₁, hV₁, hroot₁⟩ := storeNode hn fun c => { c with parent := p }
  have hn₁ : s₁.nodes.cell c = some ⟨name, type, 0, p, 0, 0⟩ := by rw [hN₁, update_self]
  rw [hrun₁, andThen_ok, bind_run]
  rcases ramfsNodeVnode_cases hn₁ rfl with ⟨s₂, hrun₂, hsame⟩ | ⟨s₂, hrun₂, hN₂, hV₂, hroot₂⟩
  · -- without a vnode the node is released, and it has none to release
    left
    obtain ⟨s₃, hrun₃, hN₃, hV₃, hroot₃⟩ := storeNode (s := s₂) (by rw [hsame.nodes, hn₁])
      fun c => { c with parent := 0 }
    have hn₃ : s₃.nodes.cell c = some ⟨name, type, 0, 0, 0, 0⟩ := by rw [hN₃, update_self]
    obtain ⟨s₄, hrun₄, hN₄, hV₄, hroot₄⟩ := freeNode hn₃
    have hrel : ramfsNodeRelease c s₃ = (.ok (), s₄) := by
      rw [ramfsNodeRelease, bind_ok (loadNode hn₃), if_pos rfl, hrun₄]
    refine ⟨s₄, ?_, ?_, ?_, ?_⟩
    · rw [hrun₂, andThen_ok, if_pos rfl, bind_ok hrun₃, bind_ok hrel]
      rfl
    · rw [hN₄, hN₃, hsame.nodes, hN₁, update_idem, update_idem]
    · rw [hV₄, hV₃, hsame.vnodes, hV₁]
    · rw [hroot₄, hroot₃, hsame.root, hroot₁]
  · right
    have hn₂ : s₂.nodes.cell c = some ⟨name, type, s₁.vnodes.next, p, 0, 0⟩ := by
      rw [hN₂, update_self]
    have hp₂ : s₂.nodes.cell p = some pn := by
      rw [hN₂, update_of_ne hpc, hN₁, update_of_ne hpc, hp]
    obtain ⟨s₃, hrun₃, hN₃, hV₃, hroot₃⟩ := storeNode hn₂ fun c => { c with sibling := pn.children }
    have hp₃ : s₃.nodes.cell p = some pn := by rw [hN₃, update_of_ne hpc, hp₂]
    obtain ⟨s₄, hrun₄, hN₄, hV₄, hroot₄⟩ := storeNode hp₃ fun p => { p with children := c }
    have hlink : linkChild p c s₂ = (.ok (), s₄) := by
      rw [linkChild, bind_ok (loadNode hp₂), bind_ok hrun₃, hrun₄]
    refine ⟨s₄, ?_, ?_, ?_, ?_⟩
    · rw [hrun₂, andThen_ok, if_neg s₁.vnodes.next_pos.ne', bind_ok hlink, hV₁]
      rfl
    · rw [hN₄, hN₃, hN₂, hN₁, hV₁, update_idem, update_idem]
    · rw [hV₄, hV₃, hV₂, hV₁]
    · rw [hroot₄, hroot₃, hroot₂, hroot₁]

/-- `t` is `s` with a new first child of `p`. -/
structure Created (s : Tree) (kids : Nat → List Nat) (p : Nat) (n : RamfsNode) (name : List UInt8)
    (type : VnodeType) (t : Tree) : Prop where
  valid : ValidName name
  new : ∀ c, ¬ Finds s.nodes.cell kids p name c
  nodes : t.nodes.cell = update (update s.nodes.cell s.nodes.next
    (some ⟨name, type, s.vnodes.next, p, n.children, 0⟩)) p
      (some { n with children := s.nodes.next })
  vnodes : t.vnodes.cell =
    update s.vnodes.cell s.vnodes.next (some ⟨type, 1, s.nodes.next⟩)
  root : t.root = s.root

theorem IsDir.createChild_cases (h : WellFormed s kids held) (hd : IsDir s v p n)
    (hname : ValidName name) (type : VnodeType) :
    (∃ e t, createChild p name type s = (.error (.code e), t) ∧ Same s t) ∨
    ∃ t, createChild p name type s = (.ok s.vnodes.next, t) ∧
      Created s kids p n name type t := by
  rw [createChild, bind_run]
  rcases h.ramfsFindChild_spec hd.node name with ⟨c, hc, hrun⟩ | ⟨hnone, hrun⟩
  · obtain ⟨m, hm, -⟩ := h.shape.child p c hc.1
    rw [hrun, andThen_ok, if_pos (Heap.ne_zero hm)]
    exact .inl ⟨_, s, rfl, Same.refl s⟩
  rw [hrun, andThen_ok, if_neg (not_not.mpr rfl), bind_run]
  have hne : s.nodes.next ≠ 0 := s.nodes.next_pos.ne'
  have hpc : p ≠ s.nodes.next := Heap.ne_next hd.node
  rcases ramfsNodeCreate_cases name type s with ⟨s₁, hrun₁, hsame⟩ | ⟨s₁, hrun₁, hN₁, hV₁, hroot₁⟩
  · rw [hrun₁, andThen_ok, if_pos rfl]
    exact .inl ⟨_, s₁, rfl, hsame⟩
  rw [hrun₁, andThen_ok, if_neg hne]
  have hn₁ : s₁.nodes.cell s.nodes.next = some ⟨name, type, 0, 0, 0, 0⟩ := by
    rw [hN₁, update_self]
  have hp₁ : s₁.nodes.cell p = some n := by rw [hN₁, update_of_ne hpc, hd.node]
  rcases attachChild_cases hn₁ hp₁ hpc with ⟨t, hrun, hN, hV, hroot⟩ | ⟨t, hrun, hN, hV, hroot⟩
  · refine .inl ⟨_, t, hrun, ?_, ?_, hroot.trans hroot₁⟩
    · rw [hN, hN₁, update_idem, ← s.nodes.cell_next, update_eq_self]
    · rw [hV, hV₁]
  · refine .inr ⟨t, by rw [hrun, hV₁], hname, hnone, ?_, ?_, hroot.trans hroot₁⟩
    · rw [hN, hN₁, hV₁, update_idem]
    · rw [hV, hV₁]

theorem WellFormed.ramfsCreateVn_cases (h : WellFormed s kids held)
    (hv : s.vnodes.cell v = some x) (hn : s.nodes.cell x.fsData = some n)
    (hl : Linked s.root x.fsData n) (name : List UInt8) (type : VnodeType) :
    (∃ e t, ramfsCreateVn v name type s = (.error (.code e), t) ∧ Same s t) ∨
    IsDir s v x.fsData n ∧ ∃ t, ramfsCreateVn v name type s = (.ok s.vnodes.next, t) ∧
      Created s kids x.fsData n name type t := by
  rw [ramfsCreateVn, bind_ok (loadVnode hv)]
  by_cases htype : x.type = .dir
  · have hd : IsDir s v x.fsData n := ⟨⟨x, hv, htype, rfl⟩, hn, hl⟩
    rw [if_neg (not_not.mpr htype)]
    by_cases hname : ValidName name
    · rw [if_neg (not_not.mpr hname)]
      by_cases hcreate : Creatable type
      · rw [if_neg (not_not.mpr hcreate), if_neg (Heap.ne_zero hn)]
        rcases hd.createChild_cases h hname type with herr | hok
        · exact .inl herr
        · exact .inr ⟨hd, hok⟩
      · rw [if_pos hcreate]
        exact .inl ⟨_, s, rfl, Same.refl s⟩
    · rw [if_pos hname]
      exact .inl ⟨_, s, rfl, Same.refl s⟩
  · rw [if_pos htype]
    exact .inl ⟨_, s, rfl, Same.refl s⟩

theorem Created.relinked (hp : s.nodes.cell p = some n) (hc : Created s kids p n name type t) :
    Relinked s.nodes.next s.nodes.cell t.nodes.cell := by
  intro q hq
  rw [hc.nodes]
  by_cases hqp : q = p
  · subst hqp
    exact ⟨s.nodes.next, n.sibling, by rw [update_self, hp, Option.map_some]⟩
  · rw [update_of_ne hqp, update_of_ne hq]
    exact Relinked.of_eq (c := s.nodes.next) (fun _ _ => rfl) q hq

theorem Created.node (hp : s.nodes.cell p = some n) (hc : Created s kids p n name type t) :
    t.nodes.cell s.nodes.next = some ⟨name, type, s.vnodes.next, p, n.children, 0⟩ := by
  rw [hc.nodes, update_of_ne (Heap.ne_next hp).symm, update_self]

theorem Created.wellFormed (h : WellFormed s kids held) (hd : IsDir s v p n)
    (hc : Created s kids p n name type t) :
    WellFormed t (update kids p (s.nodes.next :: kids p)) held := by
  have hp0 : p ≠ 0 := Heap.ne_zero hd.node
  have hlinked : Linked s.root s.nodes.next ⟨name, type, s.vnodes.next, p, n.children, 0⟩ :=
    .inr hp0
  constructor
  · rw [hc.nodes, hc.root]
    exact h.shape.insert hd.node (hd.type_eq h) hd.linked s.nodes.cell_next (Heap.lt_next hd.node) rfl rfl rfl
      hc.valid hc.new
  · rw [hc.root, hc.vnodes]
    apply h.refs.change (hc.relinked hd.node) (w := s.vnodes.next)
    · exact fun u hu => update_of_ne hu _ _
    · exact fun u _ => rfl
    · intro u y hy
      obtain ⟨m, hm, -⟩ := h.refs.vnode u y hy
      exact ⟨fun hu => absurd hu (Heap.ne_next hy), fun hf => absurd hf (Heap.ne_next hm)⟩
    · refine .inr ⟨_, ⟨type, 1, s.nodes.next⟩, hc.node hd.node, update_self .., rfl, rfl,
        (if_pos hlinked).symm, ?_, Nat.one_pos⟩
      rw [if_pos hlinked, h.refs.dead _ s.vnodes.cell_next]

end Create

section Unlink

variable {l₁ l₂ : List Nat} {cn : RamfsNode}

theorem linkBehind_load (hn : s.nodes.cell p = some n)
    (hpath : Path (Next s.nodes.cell) n.children (l₁ ++ l₂) 0) :
    ∃ y, (linkBehind p l₁).load s = (.ok y, s) ∧ Path (Next s.nodes.cell) y l₂ 0 := by
  rcases List.eq_nil_or_concat' l₁ with rfl | ⟨l, b, rfl⟩
  · refine ⟨n.children, ?_, hpath⟩
    change (nodes.load p >>= fun n => pure n.children : TreeM Nat) s = _
    rw [bind_ok (loadNode hn), pure_run]
  · rw [List.append_assoc] at hpath
    obtain ⟨a, -, rfl, y, ⟨m, hm, rfl⟩, hrest⟩ := path_append.mp hpath
    refine ⟨m.sibling, ?_, hrest⟩
    rw [linkBehind_concat]
    change (nodes.load a >>= fun n => pure n.sibling : TreeM Nat) s = _
    rw [bind_ok (loadNode hm), pure_run]

theorem Link.store_run {link : Link} (hn : s.nodes.cell link.owner = some n) (y : Nat) :
    ∃ t, link.store y s = (.ok (), t) ∧ t.nodes.cell = link.set s.nodes.cell y ∧
      t.vnodes = s.vnodes ∧ t.root = s.root := by
  cases link with
  | children p =>
    obtain ⟨t, hrun, hN, hV, hroot⟩ := storeNode hn fun n => { n with children := y }
    refine ⟨t, hrun, ?_, hV, hroot⟩
    change _ = update s.nodes.cell p ((s.nodes.cell p).map _)
    rw [hN, show s.nodes.cell p = some n from hn]
    rfl
  | sibling p =>
    obtain ⟨t, hrun, hN, hV, hroot⟩ := storeNode hn fun n => { n with sibling := y }
    refine ⟨t, hrun, ?_, hV, hroot⟩
    change _ = update s.nodes.cell p ((s.nodes.cell p).map _)
    rw [hN, show s.nodes.cell p = some n from hn]
    rfl

theorem unlinkFrom_spec (name : List UInt8) (l₁ : List Nat) {k : Nat} (hn : s.nodes.cell p = some n)
    (hpath : Path (Next s.nodes.cell) n.children (l₁ ++ l₂) 0) (hlen : l₂.length < k) :
    ((∀ c ∈ l₂, ∀ m, s.nodes.cell c = some m → m.name ≠ name) ∧
      unlinkFrom name k (linkBehind p l₁) s = (.error (.code .notFound), s)) ∨
    ∃ m₁ c m₂ cn, l₂ = m₁ ++ c :: m₂ ∧ s.nodes.cell c = some cn ∧ cn.name = name ∧
      unlinkFrom name k (linkBehind p l₁) s = removeChild (linkBehind p (l₁ ++ m₁)) c cn s := by
  induction l₂ generalizing k l₁ with
  | nil =>
    obtain ⟨k, rfl⟩ := Nat.exists_eq_succ_of_ne_zero (by omega : k ≠ 0)
    obtain ⟨y, hload, hy⟩ := linkBehind_load hn hpath
    refine .inl ⟨by simp, ?_⟩
    rw [unlinkFrom, bind_ok hload, if_pos (path_nil.mp hy)]
    rfl
  | cons a l ih =>
    obtain ⟨k, rfl⟩ := Nat.exists_eq_succ_of_ne_zero (by omega : k ≠ 0)
    obtain ⟨y, hload, rfl, b, ⟨m, hm, -⟩, -⟩ := linkBehind_load hn hpath
    rw [unlinkFrom, bind_ok hload, if_neg (Heap.ne_zero hm), bind_ok (loadNode hm),
      ← linkBehind_concat p l₁]
    split_ifs with hname
    · exact .inr ⟨[], y, l, m, rfl, hm, hname, by rw [List.append_nil]⟩
    rw [List.append_cons] at hpath
    rw [List.length_cons] at hlen
    rcases ih _ (k := k) hpath (by omega) with ⟨hnone, hrun⟩ | ⟨m₁, c, m₂, cn, rfl, hc, heq, hrun⟩
    · refine .inl ⟨fun c hc m' hm' => ?_, hrun⟩
      rcases List.mem_cons.mp hc with rfl | hc
      · obtain rfl : m = m' := Option.some.inj (hm.symm.trans hm')
        exact hname
      · exact hnone c hc m' hm'
    · refine .inr ⟨y :: m₁, c, m₂, cn, rfl, hc, heq, ?_⟩
      rw [hrun, List.append_cons l₁ y m₁]

/-- `t` is `s` without the child `c` of `p`. Who still holds the vnode keeps it and its node. -/
structure Removed (s : Tree) (kids : Nat → List Nat) (held : Nat → Nat) (p : Nat)
    (l₁ : List Nat) (c : Nat) (l₂ : List Nat) (cn : RamfsNode) (t : Tree) : Prop where
  split : kids p = l₁ ++ c :: l₂
  node : s.nodes.cell c = some cn
  empty : kids c = []
  nodes : t.nodes.cell = update (detached s.nodes.cell p l₁ c cn) c
    (if held cn.vnodeCache = 0 then none
      else some { cn with parent := 0, sibling := 0, vnodeCache := 0 })
  vnodes : t.vnodes.cell = update s.vnodes.cell cn.vnodeCache
    (if held cn.vnodeCache = 0 then none else some ⟨cn.type, held cn.vnodeCache, c⟩)
  root : t.root = s.root

theorem linkBehind_owner (hn : s.nodes.cell p = some n)
    (hpath : Path (Next s.nodes.cell) n.children (l₁ ++ l₂) 0) :
    ∃ m, s.nodes.cell (linkBehind p l₁).owner = some m := by
  rcases List.eq_nil_or_concat' l₁ with rfl | ⟨l, b, rfl⟩
  · exact ⟨n, hn⟩
  · rw [List.append_assoc] at hpath
    obtain ⟨a, -, rfl, y, ⟨m, hm, -⟩, -⟩ := path_append.mp hpath
    exact ⟨m, by rw [linkBehind_concat]; exact hm⟩

theorem WellFormed.removeChild_run (h : WellFormed s kids held) (hn : s.nodes.cell p = some n)
    (hsplit : kids p = l₁ ++ c :: l₂) (hc : s.nodes.cell c = some cn)
    (hempty : ¬ (cn.type = .dir ∧ cn.children ≠ 0)) :
    ∃ t, removeChild (linkBehind p l₁) c cn s = (.ok (), t) ∧
      Removed s kids held p l₁ c l₂ cn t := by
  have hmem : c ∈ kids p := by simp [hsplit]
  have hchain := h.shape.chain p n hn
  rw [hsplit] at hchain
  have hlinked : Linked s.root c cn := .inr (h.shape.linked_of_mem hmem hc)
  have hvn := h.cached hc hlinked
  obtain ⟨m, hm⟩ := linkBehind_owner hn hchain
  obtain ⟨s₁, hrun₁, hN₁, hV₁, hroot₁⟩ := Link.store_run hm cn.sibling
  have hc₁ : s₁.nodes.cell c = some cn := by
    rw [hN₁, Link.set_of_ne (h.shape.owner_ne hsplit).symm, hc]
  obtain ⟨s₂, hrun₂, hN₂, hV₂, hroot₂⟩ := storeNode hc₁ fun c => { c with parent := 0, sibling := 0 }
  have hc₂ : s₂.nodes.cell c = some { cn with parent := 0, sibling := 0 } := by
    rw [hN₂, update_self]
  obtain ⟨s₃, hrun₃, hN₃, hV₃, hroot₃⟩ := storeNode hc₂ fun c => { c with vnodeCache := 0 }
  have hdetached : s₂.nodes.cell = detached s.nodes.cell p l₁ c cn := by rw [hN₂, hN₁]; rfl
  have hvn₃ : s₃.vnodes.cell cn.vnodeCache = some ⟨cn.type, held cn.vnodeCache + 1, c⟩ := by
    rw [hV₃, hV₂, hV₁, hvn]
  have hc₃ : s₃.nodes.cell c = some { cn with parent := 0, sibling := 0, vnodeCache := 0 } := by
    rw [hN₃, update_self]
  have hroot : s₃.root = s.root := by rw [hroot₃, hroot₂, hroot₁]
  have hrun : removeChild (linkBehind p l₁) c cn s = vnodeUnref cn.vnodeCache s₃ := by
    rw [removeChild, if_neg hempty, bind_ok hrun₁, bind_ok hrun₂,
      ramfsNodeRelease, bind_ok (loadNode hc₂), if_neg (Heap.ne_zero hvn), bind_ok hrun₃]
  rw [hrun]
  have hempty' := h.shape.kids_eq_nil hc hempty
  by_cases hheld : held cn.vnodeCache = 0
  · obtain ⟨t, hrun₄, hN₄, hV₄, hroot₄⟩ := vnodeUnref_last hvn₃ (by simp [hheld]) hc₃
    refine ⟨t, hrun₄, hsplit, hc, hempty', ?_, ?_, hroot₄.trans hroot⟩
    · rw [if_pos hheld, hN₄, hN₃, hdetached, update_idem]
    · rw [if_pos hheld, hV₄, hV₃, hV₂, hV₁]
  · obtain ⟨t, hrun₄, hN₄, hV₄, hroot₄⟩ := vnodeUnref_more hvn₃ (by simp; omega)
    refine ⟨t, hrun₄, hsplit, hc, hempty', ?_, ?_, hroot₄.trans hroot⟩
    · rw [if_neg hheld, hN₄, hN₃, hdetached]
    · rw [if_neg hheld, hV₄, hV₃, hV₂, hV₁]
      rfl

theorem IsDir.unlink_run (hd : IsDir s v p n) (hname : ¬ (name = [] ∨ name = dot ∨ name = dotdot)) :
    ramfsUnlinkVn v name s = unlinkFrom name s.nodes.next (linkBehind p []) s := by
  obtain ⟨x, hx, htype, rfl⟩ := hd.vnode
  rw [ramfsUnlinkVn, bind_ok (loadVnode hx), if_neg (not_not.mpr htype),
    if_neg hname, if_neg (Heap.ne_zero hd.node)]
  rfl

theorem WellFormed.ramfsUnlinkVn_cases (h : WellFormed s kids held)
    (hv : s.vnodes.cell v = some x) (hn : s.nodes.cell x.fsData = some n)
    (hl : Linked s.root x.fsData n) (name : List UInt8) :
    (∃ e, ramfsUnlinkVn v name s = (.error (.code e), s)) ∨
    IsDir s v x.fsData n ∧ ∃ l₁ c l₂ cn t, ramfsUnlinkVn v name s = (.ok (), t) ∧ cn.name = name ∧
      Removed s kids held x.fsData l₁ c l₂ cn t := by
  by_cases htype : x.type = .dir
  · have hd : IsDir s v x.fsData n := ⟨⟨x, hv, htype, rfl⟩, hn, hl⟩
    by_cases hname : name = [] ∨ name = dot ∨ name = dotdot
    · left
      rw [ramfsUnlinkVn, bind_ok (loadVnode hv), if_neg (not_not.mpr htype), if_pos hname]
      exact ⟨_, rfl⟩
    rw [hd.unlink_run hname]
    rcases unlinkFrom_spec name [] hn (h.shape.chain _ n hn)
        (h.length_kids_lt x.fsData) with ⟨-, hrun⟩ | ⟨l₁, c, l₂, cn, hsplit, hc, heq, hrun⟩
    · exact .inl ⟨_, hrun⟩
    · rw [hrun, List.nil_append]
      by_cases hempty : cn.type = .dir ∧ cn.children ≠ 0
      · exact .inl ⟨.directoryNotEmpty, by rw [removeChild, if_pos hempty]; rfl⟩
      · obtain ⟨t, hrun', hrem⟩ := h.removeChild_run hn hsplit hc hempty
        exact .inr ⟨hd, l₁, c, l₂, cn, t, hrun', heq, hrem⟩
  · left
    rw [ramfsUnlinkVn, bind_ok (loadVnode hv), if_pos htype]
    exact ⟨_, rfl⟩

theorem IsDir.unlink_notEmpty (h : WellFormed s kids held) (hd : IsDir s v p n)
    (hc : Finds s.nodes.cell kids p name c) (hne : kids c ≠ []) :
    ramfsUnlinkVn v name s = (.error (.code .directoryNotEmpty), s) := by
  obtain ⟨hnil, -, hdot, hdotdot⟩ := h.validName_of_finds hc
  rw [hd.unlink_run (by simp [hnil, hdot, hdotdot])]
  rcases unlinkFrom_spec name [] hd.node (h.shape.chain _ n hd.node)
      (h.length_kids_lt p) with ⟨hnone, -⟩ | ⟨l₁, c', l₂, cn, hsplit, hc', heq, hrun⟩
  · obtain ⟨hmem, m, hm, hname⟩ := hc
    exact absurd hname (hnone c hmem m hm)
  · cases h.shape.distinct p name c c' hc ⟨by simp [hsplit], cn, hc', heq⟩
    have hdir : cn.type = .dir ∧ cn.children ≠ 0 := by
      by_contra hnot
      exact hne (h.shape.kids_eq_nil hc' hnot)
    rw [hrun, removeChild, if_pos hdir]
    rfl

theorem Removed.relinked (hr : Removed s kids held p l₁ c l₂ cn t) :
    Relinked c s.nodes.cell t.nodes.cell := by
  intro q hq
  rw [hr.nodes, update_of_ne hq]
  exact relinked_detached q hq

theorem Removed.mem (hr : Removed s kids held p l₁ c l₂ cn t) : c ∈ kids p := by
  simp [hr.split]

theorem Removed.linked (h : WellFormed s kids held) (hr : Removed s kids held p l₁ c l₂ cn t) :
    Linked s.root c cn :=
  .inr (h.shape.linked_of_mem hr.mem hr.node)

theorem Removed.wellFormed (h : WellFormed s kids held) (hr : Removed s kids held p l₁ c l₂ cn t) :
    WellFormed t (update kids p (l₁ ++ l₂)) held := by
  have hvn := h.cached hr.node (hr.linked h)
  have hdet := h.shape.detach hr.split hr.node hr.empty
  have hroot : c ≠ s.root := by
    rintro rfl
    exact h.shape.root_not_mem p hr.mem
  have hself : detached s.nodes.cell p l₁ c cn c = some { cn with parent := 0, sibling := 0 } :=
    update_self ..
  constructor
  · rw [hr.nodes, hr.root]
    split_ifs with hheld
    · exact hdet.remove hself rfl hroot
    · apply hdet.recache
      intro q
      by_cases hq : q = c
      · subst hq
        exact ⟨0, by rw [update_self, hself, Option.map_some]⟩
      · rw [update_of_ne hq]
        cases hq' : detached s.nodes.cell p l₁ c cn q with
        | none => exact ⟨0, rfl⟩
        | some m => exact ⟨m.vnodeCache, rfl⟩
  · rw [hr.root]
    apply h.refs.change hr.relinked (w := cn.vnodeCache)
    · intro u hu
      rw [hr.vnodes, update_of_ne hu]
    · exact fun u _ => rfl
    · exact fun u y hy => h.refs.eq_iff hvn hy
    · by_cases hheld : held cn.vnodeCache = 0
      · left
        rw [hr.nodes, hr.vnodes, if_pos hheld, if_pos hheld, update_self, update_self]
        exact ⟨rfl, rfl, hheld⟩
      · right
        have hnot : ¬ Linked s.root c { cn with parent := 0, sibling := 0, vnodeCache := 0 } := by
          rintro (heq | hne)
          · exact hroot heq
          · exact hne rfl
        refine ⟨{ cn with parent := 0, sibling := 0, vnodeCache := 0 },
          ⟨cn.type, held cn.vnodeCache, c⟩, ?_, ?_, rfl, rfl, (if_neg hnot).symm, ?_,
          Nat.pos_of_ne_zero hheld⟩
        · rw [hr.nodes, if_neg hheld, update_self]
        · rw [hr.vnodes, if_neg hheld, update_self]
        · rw [if_neg hnot, Nat.add_zero]

end Unlink

end CfKernel.Ramfs
