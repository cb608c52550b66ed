import CfKernel.Ramfs.Node

/-!
# The shape of a ramfs

`Shape N root kids`: the nodes in `N` are linked as a tree below `root`, and `kids p` are the
children of `p` in the order of its list. A node that was unlinked while it was still in use is
detached: it has no parent and no children. A parent is older than its children, and its address
is smaller: this is what rules out circles.

The three changes that the code makes are to put a new node at the front of a list, to take a node
without children out of its list, and to remove a detached node.
-/

namespace CfKernel.Ramfs

open Lib Fat Function

variable {N N' : Nat → Option RamfsNode} {root p q c : Nat} {kids : Nat → List Nat}
variable {n : RamfsNode} {name : List UInt8}

def Next (N : Nat → Option RamfsNode) (a b : Nat) : Prop := ∃ n, N a = some n ∧ n.sibling = b

def Finds (N : Nat → Option RamfsNode) (kids : Nat → List Nat) (p : Nat) (name : List UInt8)
    (c : Nat) : Prop :=
  c ∈ kids p ∧ ∃ n, N c = some n ∧ n.name = name

def Linked (root p : Nat) (n : RamfsNode) : Prop := p = root ∨ n.parent ≠ 0

instance (root p : Nat) (n : RamfsNode) : Decidable (Linked root p n) :=
  inferInstanceAs (Decidable (_ ∨ _))

structure Shape (N : Nat → Option RamfsNode) (root : Nat) (kids : Nat → List Nat) : Prop where
  null : N 0 = none
  rootNode : ∃ n, N root = some n ∧ n.type = .dir ∧ n.parent = 0
  chain : ∀ p n, N p = some n → Path (Next N) n.children (kids p) 0
  absent : ∀ p, N p = none → kids p = []
  child : ∀ p, ∀ c ∈ kids p, ∃ n, N c = some n ∧ n.parent = p ∧ ValidName n.name ∧ p < c
  distinct : ∀ p name c c', Finds N kids p name c → Finds N kids p name c' → c = c'
  nodup : ∀ p, (kids p).Nodup
  parent : ∀ p n, N p = some n → n.parent ≠ 0 → p ∈ kids n.parent
  onlyDirs : ∀ p n, N p = some n → kids p ≠ [] → n.type = .dir ∧ Linked root p n

namespace Shape

variable (h : Shape N root kids)
include h

theorem ne_zero (hp : N p = some n) : p ≠ 0 := by
  rintro rfl
  rw [h.null] at hp
  cases hp

theorem live_of_mem (hc : c ∈ kids p) : ∃ n, N p = some n := by
  by_contra hnone
  have : N p = none := Option.eq_none_iff_forall_ne_some.mpr fun n hn => hnone ⟨n, hn⟩
  rw [h.absent p this] at hc
  cases hc

theorem parent_of_mem (hc : c ∈ kids p) (hn : N c = some n) : n.parent = p ∧ ValidName n.name := by
  obtain ⟨n', hn', hpar, hname, -⟩ := h.child p c hc
  obtain rfl : n = n' := Option.some.inj (hn.symm.trans hn')
  exact ⟨hpar, hname⟩

theorem linked_of_mem (hc : c ∈ kids p) (hn : N c = some n) : n.parent ≠ 0 := by
  obtain ⟨m, hm⟩ := h.live_of_mem hc
  rw [(h.parent_of_mem hc hn).1]
  exact h.ne_zero hm

theorem root_not_mem (p : Nat) : root ∉ kids p := by
  intro hmem
  obtain ⟨n, hn, -, hpar⟩ := h.rootNode
  exact h.linked_of_mem hmem hn hpar

theorem kids_eq_of_mem (hc : c ∈ kids p) (hc' : c ∈ kids q) : p = q := by
  obtain ⟨n, hn, hpar, -⟩ := h.child p c hc
  exact hpar.symm.trans (h.parent_of_mem hc' hn).1

theorem kids_eq_nil (hp : N p = some n) (hn : ¬ (n.type = .dir ∧ n.children ≠ 0)) :
    kids p = [] := by
  by_contra hne
  have hdir := (h.onlyDirs p n hp hne).1
  have hchain := h.chain p n hp
  obtain ⟨c, l, hl⟩ := List.exists_cons_of_ne_nil hne
  rw [hl] at hchain
  obtain ⟨m, hm, -⟩ := h.child p c (by rw [hl]; exact List.mem_cons_self)
  exact hn ⟨hdir, by rw [hchain.head_eq]; exact h.ne_zero hm⟩

theorem children_eq_zero (hp : N p = some n) (hk : kids p = []) : n.children = 0 := by
  have hchain := h.chain p n hp
  rwa [hk] at hchain

theorem recache (hsame : ∀ p, ∃ cache, N' p = (N p).map fun n => { n with vnodeCache := cache }) :
    Shape N' root kids := by
  have fwd : ∀ p n, N p = some n → ∃ cache, N' p = some { n with vnodeCache := cache } := by
    intro p n hn
    obtain ⟨cache, hc⟩ := hsame p
    exact ⟨cache, by rw [hc, hn, Option.map_some]⟩
  have bwd : ∀ p n', N' p = some n' → ∃ n, N p = some n ∧ ∃ cache, n' = { n with vnodeCache := cache } := by
    intro p n' hn'
    obtain ⟨cache, hc⟩ := hsame p
    rw [hc, Option.map_eq_some_iff] at hn'
    obtain ⟨n, hn, heq⟩ := hn'
    exact ⟨n, hn, cache, heq.symm⟩
  have hfinds : ∀ p name c, Finds N' kids p name c → Finds N kids p name c := by
    rintro p name c ⟨hc, n', hn', hname⟩
    obtain ⟨n, hn, cache, rfl⟩ := bwd c n' hn'
    exact ⟨hc, n, hn, hname⟩
  constructor
  case null =>
    obtain ⟨cache, hc⟩ := hsame 0
    rw [hc, h.null, Option.map_none]
  case rootNode =>
    obtain ⟨n, hn, htype, hpar⟩ := h.rootNode
    obtain ⟨cache, hc⟩ := fwd root n hn
    exact ⟨_, hc, htype, hpar⟩
  case chain =>
    intro p n' hn'
    obtain ⟨n, hn, cache, rfl⟩ := bwd p n' hn'
    apply (h.chain p n hn).congr
    rintro x - b ⟨m, hm, hsib⟩
    obtain ⟨cache', hm'⟩ := fwd x m hm
    exact ⟨_, hm', hsib⟩
  case absent =>
    intro p hp
    obtain ⟨cache, hc⟩ := hsame p
    rw [hc, Option.map_eq_none_iff] at hp
    exact h.absent p hp
  case child =>
    intro p c hc
    obtain ⟨n, hn, hrest⟩ := h.child p c hc
    obtain ⟨cache, hn'⟩ := fwd c n hn
    exact ⟨_, hn', hrest⟩
  case distinct =>
    intro p name c c' hc hc'
    exact h.distinct p name c c' (hfinds p name c hc) (hfinds p name c' hc')
  case nodup => exact h.nodup
  case parent =>
    intro p n' hn' hpar
    obtain ⟨n, hn, cache, rfl⟩ := bwd p n' hn'
    exact h.parent p n hn hpar
  case onlyDirs =>
    intro p n' hn' hne
    obtain ⟨n, hn, cache, rfl⟩ := bwd p n' hn'
    exact h.onlyDirs p n hn hne

end Shape

/-- Everywhere but at `c`, at most the links of the lists change. -/
def Relinked (c : Nat) (N N' : Nat → Option RamfsNode) : Prop :=
  ∀ x, x ≠ c → ∃ children sibling,
    N' x = (N x).map fun n => { n with children := children, sibling := sibling }

theorem Relinked.of_eq (h : ∀ x, x ≠ c → N' x = N x) : Relinked c N N' := by
  intro x hx
  rw [h x hx]
  cases N x with
  | none => exact ⟨0, 0, rfl⟩
  | some n => exact ⟨n.children, n.sibling, rfl⟩

theorem Relinked.to_new (h : Relinked c N N') (hx : p ≠ c) (hn : N p = some n) :
    ∃ children sibling, N' p = some { n with children := children, sibling := sibling } := by
  obtain ⟨children, sibling, heq⟩ := h p hx
  exact ⟨children, sibling, by rw [heq, hn, Option.map_some]⟩

theorem Relinked.to_old {n' : RamfsNode} (h : Relinked c N N') (hx : p ≠ c) (hn : N' p = some n') :
    ∃ n children sibling, N p = some n ∧
      n' = { n with children := children, sibling := sibling } := by
  obtain ⟨children, sibling, heq⟩ := h p hx
  rw [heq, Option.map_eq_some_iff] at hn
  obtain ⟨n, hn, heq⟩ := hn
  exact ⟨n, children, sibling, hn, heq.symm⟩

/-- What `c` needs to stand in the list of `q`. -/
structure Placed (N N' : Nat → Option RamfsNode) (root : Nat) (kids : Nat → List Nat)
    (c q : Nat) : Prop where
  node : ∃ n, N' c = some n ∧ n.parent = q ∧ ValidName n.name ∧ q < c ∧
    ∀ x, x ≠ c → ¬ Finds N kids q n.name x
  dir : ∃ n, N q = some n ∧ n.type = .dir ∧ Linked root q n

/-- A change of the tree at one node `c` without children, with the lists as given. -/
theorem Shape.relink {kids' : Nat → List Nat} (h : Shape N root kids) (hkeep : Relinked c N N')
    (hchain : ∀ p n, N' p = some n → Path (Next N') n.children (kids' p) 0)
    (hmem : ∀ q x, x ≠ c → (x ∈ kids' q ↔ x ∈ kids q)) (hnodup : ∀ q, (kids' q).Nodup)
    (hplace : ∀ q, c ∈ kids' q → Placed N N' root kids c q)
    (hparent : ∀ n, N' c = some n → n.parent ≠ 0 → c ∈ kids' n.parent)
    (hc : c ≠ 0) (hroot : c ≠ root) (hnil : kids' c = []) : Shape N' root kids' := by
  have hfinds : ∀ p name x, x ≠ c → Finds N' kids' p name x → Finds N kids p name x := by
    rintro p name x hx ⟨hmem', n', hn', hname⟩
    obtain ⟨n, ch, sib, hn, rfl⟩ := hkeep.to_old hx hn'
    exact ⟨(hmem p x hx).mp hmem', n, hn, hname⟩
  -- a name that `c` has in its list is no other child's
  have halone : ∀ p name x, x ≠ c → Finds N' kids' p name c → ¬ Finds N' kids' p name x := by
    rintro p name x hx ⟨hmem', n', hn', rfl⟩ hother
    obtain ⟨n, hn, -, -, -, hnone⟩ := (hplace p hmem').node
    obtain rfl : n = n' := Option.some.inj (hn.symm.trans hn')
    exact hnone x hx (hfinds p _ x hx hother)
  constructor
  case null =>
    obtain ⟨ch, sib, heq⟩ := hkeep 0 hc.symm
    rw [heq, h.null, Option.map_none]
  case rootNode =>
    obtain ⟨n, hn, htype, hpar⟩ := h.rootNode
    obtain ⟨ch, sib, hn'⟩ := hkeep.to_new hroot.symm hn
    exact ⟨_, hn', htype, hpar⟩
  case chain => exact hchain
  case absent =>
    intro q hq
    by_cases hqc : q = c
    · rw [hqc, hnil]
    obtain ⟨ch, sib, heq⟩ := hkeep q hqc
    rw [heq, Option.map_eq_none_iff] at hq
    apply List.eq_nil_iff_forall_not_mem.mpr
    intro x hx
    by_cases hxc : x = c
    · obtain ⟨n, hn, -⟩ := (hplace q (hxc ▸ hx)).dir
      rw [hq] at hn
      cases hn
    · rw [hmem q x hxc, h.absent q hq] at hx
      cases hx
  case child =>
    intro q x hx
    by_cases hxc : x = c
    · subst hxc
      obtain ⟨n, hn, hpar, hname, hlt, -⟩ := (hplace q hx).node
      exact ⟨n, hn, hpar, hname, hlt⟩
    · obtain ⟨n, hn, hrest⟩ := h.child q x ((hmem q x hxc).mp hx)
      obtain ⟨ch, sib, hn'⟩ := hkeep.to_new hxc hn
      exact ⟨_, hn', hrest⟩
  case distinct =>
    intro q name x y hx hy
    by_cases hxc : x = c
    · by_contra hne
      subst hxc
      exact halone q name y (Ne.symm hne) hx hy
    · by_cases hyc : y = c
      · subst hyc
        exact absurd hx (halone q name x hxc hy)
      · exact h.distinct q name x y (hfinds q name x hxc hx) (hfinds q name y hyc hy)
  case nodup => exact hnodup
  case parent =>
    intro q n' hn' hpar
    by_cases hqc : q = c
    · subst hqc
      exact hparent n' hn' hpar
    · obtain ⟨n, ch, sib, hn, rfl⟩ := hkeep.to_old hqc hn'
      exact (hmem _ q hqc).mpr (h.parent q n hn hpar)
  case onlyDirs =>
    intro q n' hn' hne
    have hqc : q ≠ c := by
      rintro rfl
      exact hne hnil
    obtain ⟨n, ch, sib, hn, rfl⟩ := hkeep.to_old hqc hn'
    obtain ⟨x, hx⟩ := List.exists_mem_of_ne_nil _ hne
    by_cases hxc : x = c
    · obtain ⟨m, hm, hrest⟩ := (hplace q (hxc ▸ hx)).dir
      obtain rfl : n = m := Option.some.inj (hn.symm.trans hm)
      exact hrest
    · exact h.onlyDirs q n hn (List.ne_nil_of_mem ((hmem q x hxc).mp hx))

theorem Shape.insert {cn : RamfsNode} (h : Shape N root kids) (hp : N p = some n)
    (hdir : n.type = .dir) (hlink : Linked root p n) (hfresh : N c = none) (hlt : p < c)
    (hpar : cn.parent = p) (hsib : cn.sibling = n.children) (hch : cn.children = 0)
    (hname : ValidName cn.name) (hnew : ∀ x, ¬ Finds N kids p cn.name x) :
    Shape (update (update N c (some cn)) p (some { n with children := c })) root
      (update kids p (c :: kids p)) := by
  have hpc : p ≠ c := hlt.ne
  have hnil : kids c = [] := h.absent c hfresh
  have hc' : update (update N c (some cn)) p (some { n with children := c }) c =
      some cn := by
    rw [update_of_ne hpc.symm, update_self]
  have hnext : ∀ x b, Next N x b → Next (update (update N c (some cn)) p
      (some { n with children := c })) x b := by
    rintro x b ⟨m, hm, hb⟩
    by_cases hxp : x = p
    · subst hxp
      obtain rfl : m = n := Option.some.inj (hm.symm.trans hp)
      exact ⟨_, update_self .., hb⟩
    · have hxc : x ≠ c := by
        rintro rfl
        rw [hfresh] at hm
        cases hm
      exact ⟨m, by rw [update_of_ne hxp, update_of_ne hxc, hm], hb⟩
  have hnotMem : ∀ q, c ∉ kids q := by
    intro q hq
    obtain ⟨m, hm, -⟩ := h.child q c hq
    rw [hfresh] at hm
    cases hm
  apply h.relink (c := c)
  · intro x hx
    by_cases hxp : x = p
    · subst hxp
      exact ⟨c, n.sibling, by rw [update_self, hp, Option.map_some]⟩
    · rw [update_of_ne hxp, update_of_ne hx]
      exact Relinked.of_eq (c := c) (fun _ _ => rfl) x hx
  · intro q m hm
    rcases update_at_iff.mp hm with ⟨rfl, ⟨⟩⟩ | ⟨hqp, hm⟩
    · rw [update_self]
      exact ⟨rfl, n.children, ⟨cn, hc', hsib⟩, (h.chain q n hp).congr fun x _ => hnext x⟩
    · rw [update_of_ne hqp]
      rcases update_at_iff.mp hm with ⟨rfl, ⟨⟩⟩ | ⟨-, hm⟩
      · rw [hch, hnil, path_nil]
      · exact (h.chain q m hm).congr fun x _ => hnext x
  · intro q x hx
    by_cases hqp : q = p
    · subst hqp
      rw [update_self, List.mem_cons, or_iff_right hx]
    · rw [update_of_ne hqp]
  · exact (forall_update_iff kids fun _ l => l.Nodup).mpr
      ⟨List.nodup_cons.mpr ⟨hnotMem p, h.nodup p⟩, fun q _ => h.nodup q⟩
  · intro q hq
    by_cases hqp : q = p
    · subst hqp
      exact ⟨⟨cn, hc', hpar, hname, hlt, fun x _ => hnew x⟩, n, hp, hdir, hlink⟩
    · rw [update_of_ne hqp] at hq
      exact absurd hq (hnotMem q)
  · intro m hm _
    rw [hc', Option.some.injEq] at hm
    rw [← hm, hpar, update_self]
    exact List.mem_cons_self
  · exact (Nat.zero_le p).trans_lt hlt |>.ne'
  · rintro rfl
    obtain ⟨m, hm, -⟩ := h.rootNode
    rw [hfresh] at hm
    cases hm
  · rw [update_of_ne hpc.symm, hnil]

theorem Shape.remove (h : Shape N root kids) (hc : N c = some n) (hpar : n.parent = 0)
    (hroot : c ≠ root) : Shape (update N c none) root kids := by
  have hnotMem : ∀ q, c ∉ kids q := fun q hq => h.linked_of_mem hq hc hpar
  have hnil : kids c = [] := by
    by_contra hne
    rcases (h.onlyDirs c n hc hne).2 with heq | hne
    · exact hroot heq
    · exact hne hpar
  apply h.relink (c := c)
  · exact Relinked.of_eq fun x hx => update_of_ne hx _ _
  · intro q m hm
    obtain ⟨-, ⟨⟩⟩ | ⟨-, hm⟩ := update_at_iff.mp hm
    apply (h.chain q m hm).congr
    rintro x hx b ⟨k, hk, hb⟩
    have hxc : x ≠ c := by
      rintro rfl
      exact hnotMem q hx
    exact ⟨k, by rw [update_of_ne hxc, hk], hb⟩
  · exact fun q x _ => Iff.rfl
  · exact h.nodup
  · exact fun q hq => absurd hq (hnotMem q)
  · intro m hm
    rw [update_self] at hm
    cases hm
  · exact h.ne_zero hc
  · exact hroot
  · exact hnil

/-- The field that holds the address of the child behind `before` in the list of `p`. -/
def linkBehind (p : Nat) (before : List Nat) : Link :=
  match before.getLast? with
  | none => .children p
  | some b => .sibling b

def Link.set (N : Nat → Option RamfsNode) (child : Nat) : Link → Nat → Option RamfsNode
  | .children p => update N p ((N p).map fun n => { n with children := child })
  | .sibling p => update N p ((N p).map fun n => { n with sibling := child })

def Link.owner : Link → Nat
  | .children p => p
  | .sibling p => p

theorem Link.set_of_ne {link : Link} {x : Nat} (hx : x ≠ link.owner) (child : Nat) :
    link.set N child x = N x := by
  cases link <;> exact update_of_ne hx _ _

theorem Link.relinked_set (link : Link) (child c : Nat) : Relinked c N (link.set N child) := by
  intro x hx
  by_cases howner : x = link.owner
  · cases link with
    | children p =>
      obtain rfl : x = p := howner
      cases hn : N x with
      | none => exact ⟨0, 0, by rw [Link.set, update_self, hn]; rfl⟩
      | some n => exact ⟨child, n.sibling, by rw [Link.set, update_self, hn]; rfl⟩
    | sibling p =>
      obtain rfl : x = p := howner
      cases hn : N x with
      | none => exact ⟨0, 0, by rw [Link.set, update_self, hn]; rfl⟩
      | some n => exact ⟨n.children, child, by rw [Link.set, update_self, hn]; rfl⟩
  · rw [Link.set_of_ne howner]
    exact Relinked.of_eq (c := c) (fun _ _ => rfl) x hx

section Detach

variable {l₁ l₂ : List Nat} {cn : RamfsNode}

/-- The nodes after `ramfs_unlink_vn` took `c` out of the list. -/
def detached (N : Nat → Option RamfsNode) (p : Nat) (before : List Nat) (c : Nat)
    (cn : RamfsNode) : Nat → Option RamfsNode :=
  update ((linkBehind p before).set N cn.sibling) c
    (some { cn with parent := 0, sibling := 0 })

theorem relinked_detached : Relinked c N (detached N p l₁ c cn) := by
  intro x hx
  rw [detached, update_of_ne hx]
  exact Link.relinked_set _ _ c x hx

theorem linkBehind_concat (p : Nat) (l : List Nat) (b : Nat) :
    linkBehind p (l ++ [b]) = .sibling b := by
  rw [linkBehind, List.getLast?_concat]

theorem Shape.owner_ne (h : Shape N root kids) (hkids : kids p = l₁ ++ c :: l₂) :
    (linkBehind p l₁).owner ≠ c := by
  rcases List.eq_nil_or_concat' l₁ with rfl | ⟨l, b, rfl⟩
  · obtain ⟨-, -, -, -, hlt⟩ := h.child p c (by simp [hkids])
    exact hlt.ne
  · have hdup := h.nodup p
    rw [hkids] at hdup
    rw [linkBehind_concat]
    change b ≠ c
    rintro rfl
    simp [List.nodup_append] at hdup

theorem Shape.chain_detached (h : Shape N root kids) (hkids : kids p = l₁ ++ c :: l₂)
    (hc : N c = some cn) {m : RamfsNode} (hm : detached N p l₁ c cn p = some m) :
    Path (Next (detached N p l₁ c cn)) m.children (l₁ ++ l₂) 0 := by
  have hmem : c ∈ kids p := by simp [hkids]
  have hpc : p ≠ c := by
    obtain ⟨-, -, -, -, hlt⟩ := h.child p c hmem
    exact hlt.ne
  have hdup := h.nodup p
  rw [hkids] at hdup
  obtain ⟨n, hn⟩ := h.live_of_mem hmem
  have hchain := h.chain p n hn
  rw [hkids] at hchain
  have hnext : ∀ z, Next N c z → z = cn.sibling := by
    rintro z ⟨k, hk, rfl⟩
    rw [hc, Option.some.injEq] at hk
    rw [hk]
  rcases List.eq_nil_or_concat' l₁ with rfl | ⟨l, b, rfl⟩
  · -- `c` is the first child: the directory itself holds the link
    rw [detached, update_of_ne hpc] at hm
    change update N p ((N p).map fun n => { n with children := cn.sibling }) p = some m at hm
    rw [update_self, hn, Option.map_some, Option.some.injEq] at hm
    obtain ⟨-, z, hz, hrest⟩ := hchain
    cases hnext z hz
    rw [← hm]
    apply hrest.congr
    rintro x hx y ⟨k, hk, hy⟩
    have hxc : x ≠ c := by
      rintro rfl
      exact (List.nodup_cons.mp hdup).1 hx
    have hxp : x ≠ p := by
      obtain ⟨-, -, -, -, hlt⟩ := h.child p x (by simp [hkids, hx])
      exact hlt.ne'
    exact ⟨k, by rw [detached, update_of_ne hxc, Link.set_of_ne hxp, hk], hy⟩
  · -- otherwise the child before it does
    have hb : b ∈ kids p := by simp [hkids]
    obtain ⟨bn, hbn, -, -, hpb⟩ := h.child p b hb
    have hbc : b ≠ c := by
      have howner := h.owner_ne hkids
      rwa [linkBehind_concat] at howner
    have hbOther : ∀ x, x ∈ l ∨ x ∈ l₂ → x ≠ b ∧ x ≠ c := by
      intro x hx
      constructor
      · rintro rfl
        simp [List.nodup_append] at hdup
        grind
      · rintro rfl
        simp [List.nodup_append] at hdup
        grind
    have hold : ∀ x, x ∈ l ∨ x ∈ l₂ → ∀ y, Next N x y → Next (detached N p (l ++ [b]) c cn) x y := by
      rintro x hx y ⟨k, hk, hy⟩
      obtain ⟨hxb, hxc⟩ := hbOther x hx
      refine ⟨k, ?_, hy⟩
      rw [detached, update_of_ne hxc, linkBehind_concat, Link.set_of_ne hxb, hk]
    have hpm : m = n := by
      rw [detached, update_of_ne hpc, linkBehind_concat, Link.set_of_ne hpb.ne, hn] at hm
      exact (Option.some.inj hm).symm
    rw [hpm, List.append_assoc]
    rw [List.append_assoc] at hchain
    refine hchain.unlink hnext ⟨{ bn with sibling := cn.sibling }, ?_, rfl⟩
      (fun x hx => hold x (.inl hx)) fun x hx => hold x (.inr hx)
    rw [detached, update_of_ne hbc, linkBehind_concat]
    change update N b ((N b).map _) b = _
    rw [update_self, hbn, Option.map_some]

theorem next_detached (hkids : kids p = l₁ ++ c :: l₂) {x y : Nat}
    (hx : x ∉ kids p) (hnext : Next N x y) : Next (detached N p l₁ c cn) x y := by
  obtain ⟨k, hk, hy⟩ := hnext
  have hxc : x ≠ c := by
    rintro rfl
    exact hx (by simp [hkids])
  rcases List.eq_nil_or_concat' l₁ with rfl | ⟨l, b, rfl⟩
  · by_cases hxp : x = p
    · subst hxp
      refine ⟨{ k with children := cn.sibling }, ?_, hy⟩
      rw [detached, update_of_ne hxc]
      change update N x ((N x).map _) x = _
      rw [update_self, hk, Option.map_some]
    · exact ⟨k, by rw [detached, update_of_ne hxc, Link.set_of_ne hxp, hk], hy⟩
  · have hxb : x ≠ b := by
      rintro rfl
      exact hx (by simp [hkids])
    refine ⟨k, ?_, hy⟩
    rw [detached, update_of_ne hxc, linkBehind_concat, Link.set_of_ne hxb, hk]

theorem children_detached {q : Nat} {m : RamfsNode} (hqp : q ≠ p) (hqc : q ≠ c)
    (hm : detached N p l₁ c cn q = some m) : ∃ n, N q = some n ∧ m.children = n.children := by
  rw [detached, update_of_ne hqc] at hm
  rcases List.eq_nil_or_concat' l₁ with rfl | ⟨l, b, rfl⟩
  · rw [Link.set_of_ne hqp] at hm
    exact ⟨m, hm, rfl⟩
  · rw [linkBehind_concat] at hm
    by_cases hqb : q = b
    · subst hqb
      change update N q ((N q).map _) q = _ at hm
      rw [update_self, Option.map_eq_some_iff] at hm
      obtain ⟨n, hn, rfl⟩ := hm
      exact ⟨n, hn, rfl⟩
    · rw [Link.set_of_ne hqb] at hm
      exact ⟨m, hm, rfl⟩

theorem Shape.detach (h : Shape N root kids) (hkids : kids p = l₁ ++ c :: l₂) (hc : N c = some cn)
    (hnil : kids c = []) : Shape (detached N p l₁ c cn) root (update kids p (l₁ ++ l₂)) := by
  have hmem : c ∈ kids p := by simp [hkids]
  have hpc : p ≠ c := by
    obtain ⟨-, -, -, -, hlt⟩ := h.child p c hmem
    exact hlt.ne
  have hdup := h.nodup p
  rw [hkids] at hdup
  rw [List.nodup_middle, List.nodup_cons] at hdup
  have hnotMem : ∀ q, c ∉ update kids p (l₁ ++ l₂) q :=
    (forall_update_iff kids fun _ l => c ∉ l).mpr
      ⟨hdup.1, fun q hqp hq => hqp (h.kids_eq_of_mem hq hmem)⟩
  apply h.relink (c := c) relinked_detached
  · intro q m hm
    by_cases hqp : q = p
    · subst hqp
      rw [update_self]
      exact h.chain_detached hkids hc hm
    rw [update_of_ne hqp]
    by_cases hqc : q = c
    · subst hqc
      rw [detached, update_self, Option.some.injEq] at hm
      rw [← hm, hnil]
      change cn.children = 0
      exact h.children_eq_zero hc hnil
    · obtain ⟨n, hn, hch⟩ := children_detached hqp hqc hm
      rw [hch]
      apply (h.chain q n hn).congr
      intro x hx y
      exact next_detached hkids fun hxp => hqp (h.kids_eq_of_mem hx hxp)
  · intro q x hx
    by_cases hqp : q = p
    · subst hqp
      rw [update_self, hkids]
      simp [hx]
    · rw [update_of_ne hqp]
  · exact (forall_update_iff kids fun _ l => l.Nodup).mpr ⟨hdup.2, fun q _ => h.nodup q⟩
  · exact fun q hq => absurd hq (hnotMem q)
  · intro m hm hpar
    rw [detached, update_self, Option.some.injEq] at hm
    rw [← hm] at hpar
    exact absurd rfl hpar
  · exact h.ne_zero hc
  · rintro rfl
    exact h.root_not_mem p hmem
  · rw [update_of_ne hpc.symm, hnil]

end Detach

end CfKernel.Ramfs
