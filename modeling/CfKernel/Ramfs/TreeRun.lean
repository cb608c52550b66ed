import CfKernel.Lib.Run
import CfKernel.Ramfs.Dir

/-!
# Runs on the directories of a ramfs

From the mount on, whatever calls are made on the vnodes of a ramfs, its nodes form a tree, each
directory is a map from names to children, and a call that fails changes nothing.
-/

namespace CfKernel.Ramfs

open Lib Lib.Eff Fat Function

variable {s t : Tree} {p q v d c : Nat} {n m m' : RamfsNode} {x : Vnode}
variable {kids kids' : Nat → List Nat} {held held' : Nat → Nat} {name other : List UInt8}
variable {type : VnodeType} {l₁ l₂ : List Nat} {cn : RamfsNode}

/-- The nodes form a finite tree with the lists `kids`. -/
structure IsTree (s : Tree) (kids : Nat → List Nat) : Prop where
  finite : { p | s.nodes.cell p ≠ none }.Finite
  root : ∃ n, s.nodes.cell s.root = some n ∧ n.type = .dir ∧ n.parent = 0
  list : ∀ p n, s.nodes.cell p = some n → Path (Next s.nodes.cell) n.children (kids p) 0
  nodup : ∀ p, (kids p).Nodup
  parent : ∀ p, ∀ c ∈ kids p, ∃ n, s.nodes.cell c = some n ∧ n.parent = p
  place : ∀ p n, s.nodes.cell p = some n → p ≠ s.root → p ∈ kids n.parent
  reaches : ∀ p, s.nodes.cell p ≠ none →
    Relation.ReflTransGen (fun a b => ∃ n, s.nodes.cell a = some n ∧ n.parent = b) p s.root
  valid : ∀ p, ∀ c ∈ kids p, ∀ n, s.nodes.cell c = some n → ValidName n.name
  distinct : ∀ p name c c', Finds s.nodes.cell kids p name c →
    Finds s.nodes.cell kids p name c' → c = c'
  onlyDirs : ∀ p n, s.nodes.cell p = some n → kids p ≠ [] → n.type = .dir

def DirVnode (s : Tree) (v p : Nat) : Prop :=
  ∃ x, s.vnodes.cell v = some x ∧ x.type = .dir ∧ x.fsData = p

/-- Every lookup gives the same in `s` and `t`, but for this name of this directory; a directory
that the name led to in `s` is left out. -/
def SameBut (s t : Tree) (v : Nat) (name : List UInt8) : Prop :=
  ∀ d q other, DirVnode s d q → d ≠ v ∨ other ≠ name → (ramfsLookupVn v name s).1 ≠ .ok d →
    (ramfsLookupVn d other t).1 = (ramfsLookupVn d other s).1

/-- The directory at `p` with the vnode `v` is a finite map from names to vnodes. -/
structure ActsAsMap (s : Tree) (kids : Nat → List Nat) (v p : Nat) : Prop where
  create : ∀ name type w t, ramfsCreateVn v name type s = (.ok w, t) →
    s.vnodes.cell w = none ∧ (∃ c n, t.vnodes.cell w = some ⟨type, 1, c⟩ ∧
      s.nodes.cell c = none ∧ t.nodes.cell c = some n ∧ n.name = name ∧ n.type = type) ∧
    ramfsLookupVn v name t = (.ok w, t) ∧ SameBut s t v name
  unlink : ∀ name t, ramfsUnlinkVn v name s = (.ok (), t) →
    ramfsLookupVn v name t = (.error (.code .notFound), t) ∧ SameBut s t v name
  dotdot : ∃ n w y, s.nodes.cell p = some n ∧ ramfsLookupVn v dotdot s = (.ok w, s) ∧
    s.vnodes.cell w = some y ∧ y.fsData = parentOrSelf p n.parent
  notEmpty : ∀ name c, Finds s.nodes.cell kids p name c → kids c ≠ [] →
    ramfsUnlinkVn v name s = (.error (.code .directoryNotEmpty), s)
  readdir : ∀ i, ((kids p).length ≤ i ∧ ramfsReaddirVn v i s = (.error (.code .notFound), s)) ∨
    ∃ c n, (kids p)[i]? = some c ∧ s.nodes.cell c = some n ∧
      ramfsReaddirVn v i s = (.ok (n.name, n.type), s)

inductive DirRequest where
  | lookup (dir : Nat) (name : List UInt8)
  | create (dir : Nat) (name : List UInt8) (type : VnodeType)
  | unlink (dir : Nat) (name : List UInt8)

def DirRequest.dir : DirRequest → Nat
  | .lookup dir _ => dir
  | .create dir _ _ => dir
  | .unlink dir _ => dir

def DirRequest.run : DirRequest → TreeM Unit
  | .lookup dir name => do
    let _ ← ramfsLookupVn dir name
  | .create dir name type => do
    let _ ← ramfsCreateVn dir name type
  | .unlink dir name => ramfsUnlinkVn dir name

def dirStep (r : DirRequest) (s : Tree) : Tree := (r.run s).2

/-- The call is made on a vnode of the ramfs. -/
def OnVnode (r : DirRequest) (s : Tree) : Prop := s.vnodes.cell r.dir ≠ none

section

variable (h : WellFormed s kids fun _ => 0)
include h

theorem WellFormed.linked_of_unheld (hp : s.nodes.cell p = some n) : Linked s.root p n := by
  obtain ⟨v, x, hx, rfl⟩ := h.refs.node p n hp
  obtain ⟨m, hm, -, ⟨hl, -⟩ | ⟨-, -, hpos⟩⟩ := h.node_of_vnode hx
  · obtain rfl : m = n := Option.some.inj (hm.symm.trans hp)
    exact hl
  · cases hpos

/-- Parents are older than their children, so that the way up ends at the root. -/
theorem WellFormed.reaches (hp : s.nodes.cell p = some n) :
    Relation.ReflTransGen (fun a b => ∃ n, s.nodes.cell a = some n ∧ n.parent = b) p s.root := by
  induction p using Nat.strong_induction_on generalizing n with
  | _ p ih =>
    rcases h.linked_of_unheld hp with rfl | hpar
    · exact .refl
    have hmem := h.shape.parent p n hp hpar
    obtain ⟨m, hm⟩ := h.shape.live_of_mem hmem
    obtain ⟨-, -, -, -, hlt⟩ := h.shape.child _ p hmem
    exact .head ⟨n, hp, rfl⟩ (ih n.parent hlt hm)

theorem WellFormed.isTree : IsTree s kids := by
  constructor
  case finite =>
    apply (Set.finite_Iio s.nodes.next).subset
    intro p hp
    obtain ⟨n, hn⟩ := Option.ne_none_iff_exists'.mp hp
    exact Heap.lt_next hn
  case root => exact h.shape.rootNode
  case list => exact h.shape.chain
  case nodup => exact h.shape.nodup
  case parent =>
    intro p c hc
    obtain ⟨n, hn, hpar, -⟩ := h.shape.child p c hc
    exact ⟨n, hn, hpar⟩
  case place =>
    intro p n hn hroot
    rcases h.linked_of_unheld hn with heq | hpar
    · exact absurd heq hroot
    · exact h.shape.parent p n hn hpar
  case reaches =>
    intro p hp
    obtain ⟨n, hn⟩ := Option.ne_none_iff_exists'.mp hp
    exact h.reaches hn
  case valid => exact fun p c hc n hn => (h.shape.parent_of_mem hc hn).2
  case distinct => exact h.shape.distinct
  case onlyDirs => exact fun p n hn hne => (h.shape.onlyDirs p n hn hne).1

end

section Congr

theorem IsDir.relinked (hd : IsDir s d q m) (hk : Relinked c s.nodes.cell t.nodes.cell)
    (hq : q ≠ c) (hV : t.vnodes.cell d = s.vnodes.cell d) (hroot : t.root = s.root) :
    ∃ m', IsDir t d q m' ∧ m'.parent = m.parent := by
  obtain ⟨x, hx, hrest⟩ := hd.vnode
  obtain ⟨ch, sib, hm'⟩ := hk.to_new hq hd.node
  refine ⟨_, ⟨⟨x, hV.trans hx, hrest⟩, hm', ?_⟩, rfl⟩
  rw [hroot]
  exact hd.linked

theorem finds_iff (hk : Relinked c s.nodes.cell t.nodes.cell)
    (hmem : ∀ a, a ≠ c → (a ∈ kids' q ↔ a ∈ kids q)) (hold : ¬ Finds s.nodes.cell kids q name c)
    (hnew : ¬ Finds t.nodes.cell kids' q name c) (a : Nat) :
    Finds t.nodes.cell kids' q name a ↔ Finds s.nodes.cell kids q name a := by
  by_cases hac : a = c
  · subst hac
    exact iff_of_false hnew hold
  constructor
  · rintro ⟨ha, n', hn', hname⟩
    obtain ⟨n, ch, sib, hn, rfl⟩ := hk.to_old hac hn'
    exact ⟨(hmem a hac).mp ha, n, hn, hname⟩
  · rintro ⟨ha, n, hn, hname⟩
    obtain ⟨ch, sib, hn'⟩ := hk.to_new hac hn
    exact ⟨(hmem a hac).mpr ha, _, hn', hname⟩

theorem lookup_congr (hs : WellFormed s kids held) (ht : WellFormed t kids' held')
    (hk : Relinked c s.nodes.cell t.nodes.cell) (hd : IsDir s d q m) (hd' : IsDir t d q m')
    (hm : m'.parent = m.parent) (hpar : parentOrSelf q m.parent ≠ c)
    (hfinds : ∀ a, Finds t.nodes.cell kids' q name a ↔ Finds s.nodes.cell kids q name a)
    (hold : ¬ Finds s.nodes.cell kids q name c) :
    (ramfsLookupVn d name t).1 = (ramfsLookupVn d name s).1 := by
  by_cases hdot : name = dot
  · rw [hdot, hd.lookup_dot, hd'.lookup_dot]
  by_cases hdotdot : name = dotdot
  · obtain ⟨n, hn, -, hrun⟩ := hd.lookup_dotdot hs
    obtain ⟨n', hn', -, hrun'⟩ := hd'.lookup_dotdot ht
    rw [hm] at hn'
    obtain ⟨ch, sib, heq⟩ := hk.to_new hpar hn
    rw [hdotdot, hrun, hrun', Option.some.inj (hn'.symm.trans heq)]
  by_cases hc : ∃ a, Finds s.nodes.cell kids q name a
  · obtain ⟨a, ha⟩ := hc
    obtain ⟨n, hn, -⟩ := hs.shape.child q a ha.1
    have hac : a ≠ c := by
      rintro rfl
      exact hold ha
    obtain ⟨ch, sib, hn'⟩ := hk.to_new hac hn
    rw [hd.lookup_found hs ha hn, hd'.lookup_found ht ((hfinds a).mpr ha) hn']
  · have hnone : ∀ a, ¬ Finds s.nodes.cell kids q name a := fun a ha => hc ⟨a, ha⟩
    rw [hd.lookup_missing hs hdot hdotdot hnone,
      hd'.lookup_missing ht hdot hdotdot fun a ha => hnone a ((hfinds a).mp ha)]

end Congr

section Map

theorem Created.finds (hp : s.nodes.cell p = some n) (hc : Created s kids p n name type t) :
    Finds t.nodes.cell (update kids p (s.nodes.next :: kids p)) p name s.nodes.next :=
  ⟨by rw [update_self]; exact List.mem_cons_self, _, hc.node hp, rfl⟩

theorem Created.lookup (h : WellFormed s kids held) (hd : IsDir s v p n)
    (hc : Created s kids p n name type t) : ramfsLookupVn v name t = (.ok s.vnodes.next, t) := by
  obtain ⟨x, hx, -⟩ := hd.vnode
  have hV : t.vnodes.cell v = s.vnodes.cell v := by
    rw [hc.vnodes, update_of_ne (Heap.ne_next hx)]
  obtain ⟨n', hd', -⟩ := hd.relinked (hc.relinked hd.node) (Heap.ne_next hd.node) hV hc.root
  exact hd'.lookup_found (hc.wellFormed h hd) (hc.finds hd.node) (hc.node hd.node)

theorem Created.sameBut (h : WellFormed s kids fun _ => 0) (hd : IsDir s v p n)
    (hc : Created s kids p n name type t) : SameBut s t v name := by
  rintro d q other ⟨x, hx, htype, rfl⟩ hne -
  obtain ⟨m, hm, -⟩ := h.node_of_vnode hx
  have hdq : IsDir s d x.fsData m := ⟨⟨x, hx, htype, rfl⟩, hm, h.linked_of_unheld hm⟩
  have hV : t.vnodes.cell d = s.vnodes.cell d := by
    rw [hc.vnodes, update_of_ne (Heap.ne_next hx)]
  have hk := hc.relinked hd.node
  obtain ⟨m', hdq', hpar⟩ := hdq.relinked hk (Heap.ne_next hm) hV hc.root
  have hold : ¬ Finds s.nodes.cell kids x.fsData other s.nodes.next := by
    rintro ⟨-, n', hn', -⟩
    exact Heap.ne_next hn' rfl
  obtain ⟨pn, hpn, -⟩ := h.parent_linked hm hdq.linked
  apply lookup_congr h (hc.wellFormed h hd) hk hdq hdq' hpar (Heap.ne_next hpn) _ hold
  apply finds_iff hk _ hold
  · -- the new child is found under its own name in its own directory only
    rintro ⟨hmem, n', hn', hname⟩
    obtain rfl := Option.some.inj (hn'.symm.trans (hc.node hd.node))
    by_cases hqp : x.fsData = p
    · obtain ⟨y, hy, -, hyp⟩ := hd.vnode
      rcases hne with hne | hne
      · exact hne (h.refs.unique d v x y hx hy (hqp.trans hyp.symm))
      · exact hne hname.symm
    · rw [update_of_ne hqp] at hmem
      obtain ⟨k, hk', -⟩ := h.shape.child _ _ hmem
      exact Heap.ne_next hk' rfl
  · intro a ha
    by_cases hqp : x.fsData = p
    · rw [hqp, update_self, List.mem_cons, or_iff_right ha]
    · rw [update_of_ne hqp]

theorem Removed.not_finds (h : WellFormed s kids held)
    (hr : Removed s kids held p l₁ c l₂ cn t) (hname : cn.name = name) (a : Nat) :
    ¬ Finds t.nodes.cell (update kids p (l₁ ++ l₂)) p name a := by
  rintro ⟨hmem, n', hn', hname'⟩
  rw [update_self] at hmem
  have hac : a ≠ c := by
    rintro rfl
    have hdup := h.shape.nodup p
    rw [hr.split] at hdup
    exact (List.nodup_cons.mp (List.nodup_middle.mp hdup)).1 hmem
  obtain ⟨n, ch, sib, hn, rfl⟩ := hr.relinked.to_old hac hn'
  have hmem' : a ∈ kids p := by
    rw [hr.split]
    exact List.mem_append.mpr ((List.mem_append.mp hmem).imp id (List.mem_cons_of_mem c))
  exact hac (h.shape.distinct p name a c ⟨hmem', n, hn, hname'⟩ ⟨hr.mem, cn, hr.node, hname⟩)

theorem Removed.vnode_ne (h : WellFormed s kids held) (hr : Removed s kids held p l₁ c l₂ cn t)
    (hx : s.vnodes.cell d = some x) (hq : x.fsData ≠ c) : d ≠ cn.vnodeCache := by
  rintro rfl
  obtain rfl := Option.some.inj (hx.symm.trans (h.cached hr.node (hr.linked h)))
  exact hq rfl

theorem Removed.lookup (h : WellFormed s kids held) (hd : IsDir s v p n)
    (hr : Removed s kids held p l₁ c l₂ cn t) (hname : cn.name = name) :
    ramfsLookupVn v name t = (.error (.code .notFound), t) := by
  obtain ⟨x, hx, -, rfl⟩ := hd.vnode
  have hpc : x.fsData ≠ c := by
    obtain ⟨-, -, -, -, hlt⟩ := h.shape.child _ c hr.mem
    exact hlt.ne
  have hV : t.vnodes.cell v = s.vnodes.cell v := by
    rw [hr.vnodes, update_of_ne (hr.vnode_ne h hx hpc)]
  obtain ⟨n', hd', -⟩ := hd.relinked hr.relinked hpc hV hr.root
  obtain ⟨-, -, hdot, hdotdot⟩ := (h.shape.parent_of_mem hr.mem hr.node).2
  rw [hname] at hdot hdotdot
  exact hd'.lookup_missing (hr.wellFormed h) hdot hdotdot (hr.not_finds h hname)

theorem Removed.sameBut (h : WellFormed s kids fun _ => 0) (hd : IsDir s v p n)
    (hr : Removed s kids (fun _ => 0) p l₁ c l₂ cn t) (hname : cn.name = name) :
    SameBut s t v name := by
  rintro d q other ⟨x, hx, htype, rfl⟩ hne hgone
  have hfound := hd.lookup_found h ⟨hr.mem, cn, hr.node, hname⟩ hr.node
  rw [hfound] at hgone
  have hqc : x.fsData ≠ c := by
    rintro rfl
    obtain ⟨m, hm, -, ⟨-, hcache⟩ | ⟨-, -, hpos⟩⟩ := h.node_of_vnode hx
    · obtain rfl := Option.some.inj (hm.symm.trans hr.node)
      exact hgone (by rw [hcache])
    · cases hpos
  obtain ⟨m, hm, -⟩ := h.node_of_vnode hx
  have hdq : IsDir s d x.fsData m := ⟨⟨x, hx, htype, rfl⟩, hm, h.linked_of_unheld hm⟩
  have hV : t.vnodes.cell d = s.vnodes.cell d := by
    rw [hr.vnodes, update_of_ne (hr.vnode_ne h hx hqc)]
  obtain ⟨m', hdq', hpar⟩ := hdq.relinked hr.relinked hqc hV hr.root
  have hparent : parentOrSelf x.fsData m.parent ≠ c := by
    by_cases h0 : m.parent = 0
    · rwa [parentOrSelf, if_pos h0]
    · rw [parentOrSelf, if_neg h0]
      intro heq
      have hmem := h.shape.parent _ m hm h0
      rw [heq, hr.empty] at hmem
      cases hmem
  have hold : ¬ Finds s.nodes.cell kids x.fsData other c := by
    rintro ⟨hmem, n', hn', hname'⟩
    obtain rfl := Option.some.inj (hn'.symm.trans hr.node)
    obtain ⟨y, hy, -, hyp⟩ := hd.vnode
    have hqp : x.fsData = p := h.shape.kids_eq_of_mem hmem hr.mem
    rcases hne with hne | hne
    · exact hne (h.refs.unique d v x y hx hy (hqp.trans hyp.symm))
    · exact hne (hname'.symm.trans hname)
  apply lookup_congr h (hr.wellFormed h) hr.relinked hdq hdq' hpar hparent _ hold
  apply finds_iff hr.relinked _ hold
  · rintro ⟨hmem, n', hn', -⟩
    rw [hr.nodes, if_pos rfl, update_self] at hn'
    cases hn'
  · intro a ha
    by_cases hqp : x.fsData = p
    · rw [hqp, update_self, hr.split]
      simp [ha]
    · rw [update_of_ne hqp]

end Map

section Mount

theorem ramfsMountFn_cases (alloc : Nat → Bool) :
    (∃ e t, ramfsMountFn (unmounted alloc) = (.error e, t)) ∨
    ∃ t, ramfsMountFn (unmounted alloc) = (.ok (), t) ∧ t.root = 1 ∧
      t.nodes.cell = update (fun _ => none) 1 (some ⟨[], .dir, 0, 0, 0, 0⟩) ∧
      t.vnodes = Heap.empty := by
  rw [ramfsMountFn, allocate_run]
  change (∃ e t, (if alloc 0 = true then _ else _ : TreeM Unit) (unmounted fun n => alloc (n + 1)) = _) ∨
    ∃ t, (if alloc 0 = true then _ else _ : TreeM Unit) (unmounted fun n => alloc (n + 1)) = _ ∧ _
  split_ifs with ha
  · rw [bind_run]
    rcases ramfsNodeCreate_cases [] .dir (unmounted fun n => alloc (n + 1)) with
      ⟨t, hrun, -⟩ | ⟨t, hrun, hN, hV, -⟩
    · rw [hrun, andThen_ok, if_pos rfl]
      exact .inl ⟨_, t, rfl⟩
    · rw [hrun, andThen_ok, if_neg (Heap.next_pos _).ne', modify_run]
      exact .inr ⟨_, rfl, rfl, hN, hV⟩
  · exact .inl ⟨_, _, rfl⟩

theorem mountRamfs_cases (alloc : Nat → Bool) :
    (∃ e t, mountRamfs (unmounted alloc) = (.error e, t)) ∨
    ∃ t, mountRamfs (unmounted alloc) = (.ok 1, t) ∧ t.root = 1 ∧
      t.nodes.cell = update (fun _ => none) 1 (some ⟨[], .dir, 1, 0, 0, 0⟩) ∧
      t.vnodes.cell = update (fun _ => none) 1 (some ⟨.dir, 1, 1⟩) := by
  rw [mountRamfs, bind_run]
  rcases ramfsMountFn_cases alloc with ⟨e, t, hrun⟩ | ⟨t, hrun, hroot, hN, hV⟩
  · rw [hrun]
    exact .inl ⟨e, t, rfl⟩
  have hn : t.nodes.cell t.root = some ⟨[], .dir, 0, 0, 0, 0⟩ := by
    rw [hN, hroot, update_self]
  have hrun' : ramfsRootVnode t = (ramfsNodeVnode t.root >>= orOutOfMemory) t := by
    change (if t.root = 0 then failWith .invalidArgument
      else ramfsNodeVnode t.root >>= orOutOfMemory) t = _
    rw [if_neg (Heap.ne_zero hn)]
  rw [hrun, andThen_ok, hrun', bind_run]
  rcases ramfsNodeVnode_cases hn rfl with ⟨t', hrun, -⟩ | ⟨t', hrun, hN', hV', hroot'⟩
  · rw [hrun, andThen_ok, orOutOfMemory, if_pos rfl]
    exact .inl ⟨_, t', rfl⟩
  · rw [hV] at hrun hN' hV'
    rw [hrun, andThen_ok, orOutOfMemory, if_neg (Heap.next_pos _).ne']
    refine .inr ⟨t', rfl, hroot'.trans hroot, ?_, ?_⟩
    · rw [hN', hN, hroot, update_idem]
      rfl
    · rw [hV', hroot]
      rfl

theorem wellFormed_mounted (hroot : s.root = 1)
    (hN : s.nodes.cell = update (fun _ => none) 1 (some ⟨[], .dir, 1, 0, 0, 0⟩))
    (hV : s.vnodes.cell = update (fun _ => none) 1 (some ⟨.dir, 1, 1⟩)) :
    WellFormed s (fun _ => []) fun _ => 0 := by
  have hnode : ∀ p n, s.nodes.cell p = some n → p = 1 ∧ n = ⟨[], .dir, 1, 0, 0, 0⟩ := by
    intro p n hn
    rw [hN, update_apply] at hn
    split at hn
    · exact ⟨‹_›, (Option.some.inj hn).symm⟩
    · cases hn
  have hvnode : ∀ v x, s.vnodes.cell v = some x → v = 1 ∧ x = ⟨.dir, 1, 1⟩ := by
    intro v x hx
    rw [hV, update_apply] at hx
    split at hx
    · exact ⟨‹_›, (Option.some.inj hx).symm⟩
    · cases hx
  have hroot1 : s.nodes.cell 1 = some ⟨[], .dir, 1, 0, 0, 0⟩ := by rw [hN, update_self]
  have hvroot1 : s.vnodes.cell 1 = some ⟨.dir, 1, 1⟩ := by rw [hV, update_self]
  constructor
  · refine ⟨s.nodes.cell_zero, ⟨_, hroot ▸ hroot1, rfl, rfl⟩, ?_, ?_, ?_, ?_, ?_, ?_, ?_⟩
    · intro p n hn
      obtain ⟨-, rfl⟩ := hnode p n hn
      exact path_nil.mpr rfl
    · exact fun _ _ => rfl
    · exact fun _ c hc => absurd hc List.not_mem_nil
    · exact fun _ _ c _ hc => absurd hc.1 List.not_mem_nil
    · exact fun _ => List.nodup_nil
    · intro p n hn hpar
      obtain ⟨-, rfl⟩ := hnode p n hn
      exact absurd rfl hpar
    · exact fun _ _ _ hne => absurd rfl hne
  · constructor
    · intro v x hx
      obtain ⟨rfl, rfl⟩ := hvnode v x hx
      have hlinked : Linked s.root 1 ⟨[], .dir, 1, 0, 0, 0⟩ := .inl hroot.symm
      exact ⟨_, hroot1, rfl, rfl, (if_pos hlinked).symm, by rw [if_pos hlinked], Nat.one_pos⟩
    · intro p n hn
      obtain ⟨rfl, -⟩ := hnode p n hn
      exact ⟨1, _, hvroot1, rfl⟩
    · intro v w x y hx hy _
      rw [(hvnode v x hx).1, (hvnode w y hy).1]
    · exact fun _ _ => rfl

end Mount

section Run

section

variable (h : WellFormed s kids fun _ => 0)
include h

theorem WellFormed.isDir (hv : DirVnode s v p) : ∃ n, IsDir s v p n := by
  obtain ⟨x, hx, htype, rfl⟩ := hv
  obtain ⟨n, hn, -⟩ := h.node_of_vnode hx
  exact ⟨n, ⟨x, hx, htype, rfl⟩, hn, h.linked_of_unheld hn⟩

theorem WellFormed.actsAsMap (hv : DirVnode s v p) : ActsAsMap s kids v p := by
  obtain ⟨n, hd⟩ := h.isDir hv
  obtain ⟨x, hx, -, rfl⟩ := hv
  constructor
  case create =>
    intro name type w t hrun
    rcases h.ramfsCreateVn_cases hx hd.node hd.linked name type with
      ⟨e, t', hrun', -⟩ | ⟨-, t', hrun', hc⟩
    · cases hrun'.symm.trans hrun
    · cases hrun'.symm.trans hrun
      refine ⟨s.vnodes.cell_next, ⟨s.nodes.next, _, ?_, s.nodes.cell_next, hc.node hd.node, rfl, rfl⟩,
        hc.lookup h hd, hc.sameBut h hd⟩
      rw [hc.vnodes, update_self]
  case unlink =>
    intro name t hrun
    rcases h.ramfsUnlinkVn_cases hx hd.node hd.linked name with
      ⟨e, hrun'⟩ | ⟨-, l₁, c, l₂, cn, t', hrun', hname, hr⟩
    · cases hrun'.symm.trans hrun
    · cases hrun'.symm.trans hrun
      exact ⟨hr.lookup h hd hname, hr.sameBut h hd hname⟩
  case dotdot =>
    obtain ⟨m, hm, hl, hrun⟩ := hd.lookup_dotdot h
    exact ⟨n, _, _, hd.node, hrun, h.cached hm hl, rfl⟩
  case notEmpty => exact fun name c hc hne => hd.unlink_notEmpty h hc hne
  case readdir => exact hd.readdir h

/-- One call: the tree stays well formed, keeps the directories that are not empty, and is the same
after an error. -/
theorem WellFormed.request {r : DirRequest} (hr : OnVnode r s) :
    ∃ out t, r.run s = (out, t) ∧ (∃ kids', WellFormed t kids' fun _ => 0) ∧
      (∀ p, kids p ≠ [] → t.nodes.cell p ≠ none) ∧
      ∀ e, out = .error e → (∃ code, e = .code code) ∧ Same s t := by
  have hstay : ∀ p, kids p ≠ [] → s.nodes.cell p ≠ none := fun p hne hnone =>
    hne (h.shape.absent p hnone)
  obtain ⟨x, hx⟩ := Option.ne_none_iff_exists'.mp hr
  obtain ⟨n, hn, -⟩ := h.node_of_vnode hx
  have hl := h.linked_of_unheld hn
  have hsame : ∀ t, Same s t → (∃ kids', WellFormed t kids' fun _ => 0) ∧
      ∀ p, kids p ≠ [] → t.nodes.cell p ≠ none := fun t ht =>
    ⟨⟨kids, ht.wellFormed h⟩, fun p hp => by rw [ht.nodes]; exact hstay p hp⟩
  cases r with
  | lookup dir name =>
    obtain ⟨hwf, hkeep⟩ := hsame s (Same.refl s)
    rcases h.ramfsLookupVn_cases hx hn hl name with ⟨e, hrun⟩ | ⟨c, m, -, -, hrun⟩
    · refine ⟨.error (.code e), s, bind_error hrun, hwf, hkeep, ?_⟩
      exact fun e' he => ⟨⟨e, (Except.error.inj he).symm⟩, Same.refl s⟩
    · exact ⟨.ok (), s, bind_ok hrun, hwf, hkeep, fun e he => by cases he⟩
  | create dir name type =>
    rcases h.ramfsCreateVn_cases hx hn hl name type with ⟨e, t, hrun, ht⟩ | ⟨hd, t, hrun, hc⟩
    · obtain ⟨hwf, hkeep⟩ := hsame t ht
      refine ⟨.error (.code e), t, bind_error hrun, hwf, hkeep, ?_⟩
      exact fun e' he => ⟨⟨e, (Except.error.inj he).symm⟩, ht⟩
    · refine ⟨.ok (), t, bind_ok hrun, ⟨_, hc.wellFormed h hd⟩, ?_, fun e he => by cases he⟩
      intro p hp
      obtain ⟨m, hm⟩ := Option.ne_none_iff_exists'.mp (hstay p hp)
      obtain ⟨ch, sib, hm'⟩ := (hc.relinked hd.node).to_new (Heap.ne_next hm) hm
      rw [hm']
      exact Option.some_ne_none _
  | unlink dir name =>
    rcases h.ramfsUnlinkVn_cases hx hn hl name with
      ⟨e, hrun⟩ | ⟨hd, l₁, c, l₂, cn, t, hrun, hname, hrem⟩
    · obtain ⟨hwf, hkeep⟩ := hsame s (Same.refl s)
      refine ⟨.error (.code e), s, hrun, hwf, hkeep, ?_⟩
      exact fun e' he => ⟨⟨e, (Except.error.inj he).symm⟩, Same.refl s⟩
    · refine ⟨.ok (), t, hrun, ⟨_, hrem.wellFormed h⟩, ?_, fun e he => by cases he⟩
      intro p hp
      have hpc : p ≠ c := by
        rintro rfl
        exact hp hrem.empty
      obtain ⟨m, hm⟩ := Option.ne_none_iff_exists'.mp (hstay p hp)
      obtain ⟨ch, sib, hm'⟩ := hrem.relinked.to_new hpc hm
      rw [hm']
      exact Option.some_ne_none _

end

/-- Every state of a mounted ramfs is a tree of directories that are maps. -/
theorem ramfs_isTree_of_maps {alloc : Nat → Bool} {root : Nat} {s₀ : Tree}
    (hmount : mountRamfs (unmounted alloc) = (.ok root, s₀)) (hrun : Reach dirStep OnVnode s₀ s) :
    ∃ kids, IsTree s kids ∧ (∀ v p, DirVnode s v p → ActsAsMap s kids v p) ∧
      (∀ r, OnVnode r s → ∀ p, kids p ≠ [] → (dirStep r s).nodes.cell p ≠ none) ∧
      ∀ r e t, OnVnode r s → r.run s = (.error e, t) →
        (∃ code, e = .code code) ∧ Same s t := by
  have hinit : ∃ kids, WellFormed s₀ kids fun _ => 0 := by
    rcases mountRamfs_cases alloc with ⟨e, t, hrun⟩ | ⟨t, hrun, hroot, hN, hV⟩
    · cases hrun.symm.trans hmount
    · cases hrun.symm.trans hmount
      exact ⟨_, wellFormed_mounted hroot hN hV⟩
  obtain ⟨kids, h⟩ : ∃ kids, WellFormed s kids fun _ => 0 := by
    apply hrun.invariant (fun s => ∃ kids, WellFormed s kids fun _ => 0) hinit
    rintro r s ⟨kids, h⟩ hr
    obtain ⟨out, t, hrun, hwf, -⟩ := h.request hr
    rwa [dirStep, hrun]
  refine ⟨kids, h.isTree, fun v p => h.actsAsMap, ?_, ?_⟩
  · intro r hr
    obtain ⟨out, t, hrun, -, hkeep, -⟩ := h.request hr
    rwa [dirStep, hrun]
  · intro r e t hr herr
    obtain ⟨out, t', hrun, -, -, hout⟩ := h.request hr
    cases hrun.symm.trans herr
    exact hout e rfl

def oneDir : Tree :=
  dirStep (.create 1 [0x61] .dir) (mountRamfs (unmounted fun _ => true)).2

theorem ramfs_isTree_of_maps_oneDir : ∃ kids, IsTree oneDir kids ∧ ActsAsMap oneDir kids 2 2 := by
  have hmount : mountRamfs (unmounted fun _ => true) =
      (.ok 1, (mountRamfs (unmounted fun _ => true)).2) := rfl
  have hrun : Reach dirStep OnVnode (mountRamfs (unmounted fun _ => true)).2 oneDir :=
    .step (DirRequest.create 1 [0x61] .dir) .start (by unfold OnVnode; decide)
  obtain ⟨kids, htree, hmap, -⟩ := ramfs_isTree_of_maps hmount hrun
  exact ⟨kids, htree, hmap 2 2 ⟨⟨.dir, 1, 2⟩, by decide, rfl, rfl⟩⟩

end Run

end CfKernel.Ramfs
