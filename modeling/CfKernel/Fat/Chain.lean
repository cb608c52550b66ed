import CfKernel.Fat.Volume
import CfKernel.Lib.Path

/-!
# Cluster chains

`fat_alloc_cluster`, `fat_free_chain` and `fat_ensure_cluster`. A chain is the path that
`fat_next_cluster` follows to the end mark. Allocation takes a free cluster, zeroes it and marks
it as an end; extension links it behind the last cluster of a chain; and none of the three touches
the table entries or the bytes of any other cluster.
-/

namespace CfKernel.Fat

open Lib

def fatAllocFrom (sb : FatSuper) : Nat → Nat → FatM Nat
  | 0, _ => Eff.fail .noSpaceLeft
  | n + 1, cluster => do
    let value ← onDisk fun d => sb.getFatEntry d cluster
    if value ≠ 0 then fatAllocFrom sb n (cluster + 1)
    else do
      toDisk fun d => fatWriteCluster sb d cluster fun _ => 0
      toDisk fun d => sb.setFatEntry d cluster (fatEocMarker sb)
      pure cluster

def fatAllocCluster (sb : FatSuper) : FatM Nat := do
  malloc
  fatAllocFrom sb sb.clusterCount 2

def fatFreeFrom (sb : FatSuper) : Nat → Nat → FatM Unit
  | 0, cluster => if cluster ≠ 0 then Eff.fail .ioError else pure ()
  | n + 1, cluster =>
    if cluster = 0 then pure ()
    else do
      let next ← onDisk fun d => fatNextCluster sb d cluster
      toDisk fun d => sb.setFatEntry d cluster 0
      fatFreeFrom sb n next

def fatFreeChain (sb : FatSuper) (cluster : Nat) : FatM Unit :=
  fatFreeFrom sb sb.clusterCount cluster

/-- Links a newly allocated cluster behind the last one, as `fat_ensure_cluster` and
`fat_find_free_slot` do. -/
def fatAppendCluster (sb : FatSuper) (cluster : Nat) : FatM Nat := do
  let next ← fatAllocCluster sb
  match ← Eff.attempt (toDisk fun d => sb.setFatEntry d cluster next) with
  | .ok _ => pure next
  | .error e => do
    let _ ← Eff.attempt (fatFreeChain sb next)
    Eff.fail e

def fatEnsureFrom (sb : FatSuper) : Nat → Nat → FatM Nat
  | 0, cluster => pure cluster
  | n + 1, cluster => do
    let next ← onDisk fun d => fatNextCluster sb d cluster
    if next ≠ 0 then fatEnsureFrom sb n next
    else do
      let next ← fatAppendCluster sb cluster
      fatEnsureFrom sb n next

/-- The cluster of the node with number `index`; a chain that is too short is extended. -/
def fatEnsureCluster (sb : FatSuper) (index : Nat) : FatM Nat := do
  let node ← getNode
  if node.firstCluster ≠ 0 then fatEnsureFrom sb index node.firstCluster
  else do
    let cluster ← fatAllocCluster sb
    modifyNode fun node => { node with firstCluster := cluster }
    fatEnsureFrom sb index cluster

variable {s : FatState} {f : Disk → Except Errno Disk}

theorem onDisk_run {α : Type} {f : Disk → Except Errno α} {a : α}
    (h : f s.disk = .ok a) : onDisk f s = (.ok a, s) := by
  simp only [onDisk, Eff.read, h]

theorem onDisk_fail {α : Type} {f : Disk → Except Errno α} {e : Errno}
    (h : f s.disk = .error e) : onDisk f s = (.error e, s) := by
  simp only [onDisk, Eff.read, h]

theorem toDisk_run {d : Disk}
    (h : f s.disk = .ok d) : toDisk f s = (.ok (), { s with disk := d }) := by
  simp only [toDisk, Eff.write, h, Except.map]

theorem toDisk_fail {e : Errno} (h : f s.disk = .error e) : toDisk f s = (.error e, s) := by
  simp only [toDisk, Eff.write, h, Except.map]

theorem getNode_run (s : FatState) : getNode s = (.ok s.node, s) := rfl

theorem modifyNode_run (f : FatNode → FatNode) (s : FatState) :
    modifyNode f s = (.ok (), { s with node := f s.node }) := rfl

theorem malloc_cases (s : FatState) : ∃ mem, malloc s = (.ok (), { s with mem := mem }) ∨
    malloc s = (.error .outOfMemory, { s with mem := mem }) := by
  refine ⟨fun n => s.mem (n + 1), ?_⟩
  unfold malloc
  cases s.mem 0
  · exact .inr rfl
  · exact .inl rfl

namespace FatSuper

variable (sb : FatSuper)

/-- `fat_next_cluster` leads from `c` to `n`; the end of a chain is `0`. -/
def Link (d : Disk) (c n : Nat) : Prop := sb.IsCluster c ∧ fatNextCluster sb d c = .ok n

def Chain (d : Disk) (c : Nat) (l : List Nat) : Prop := Path (sb.Link d) c l 0

def Free (d : Disk) (c : Nat) : Prop := sb.IsCluster c ∧ sb.getFatEntry d c = .ok 0

/-- `d'` is `d` after `set_fat_entry(i, v)`. -/
structure EntrySet (d d' : Disk) (i v : Nat) : Prop where
  fat : ∀ x < sb.clusterCount + 2,
    sb.getFatEntry d' x = if x = i then .ok v else sb.getFatEntry d x
  data : ∀ a, sb.rootDirStart * 512 ≤ a → d' a = d a
  copies : sb.CopiesEqual d → sb.CopiesEqual d'

structure Allocated (d d' : Disk) (c : Nat) : Prop where
  free : sb.Free d c
  fat : ∀ x < sb.clusterCount + 2,
    sb.getFatEntry d' x = if x = c then .ok (fatEocMarker sb) else sb.getFatEntry d x
  data : ∀ a, sb.rootDirStart * 512 ≤ a → ¬ sb.InCluster c a → d' a = d a
  zero : ∀ a, sb.InCluster c a → d' a = 0
  copies : sb.CopiesEqual d → sb.CopiesEqual d'

structure Freed (d d' : Disk) (l : List Nat) : Prop where
  fat : ∀ x < sb.clusterCount + 2,
    sb.getFatEntry d' x = if x ∈ l then .ok 0 else sb.getFatEntry d x
  data : ∀ a, sb.rootDirStart * 512 ≤ a → d' a = d a
  copies : sb.CopiesEqual d → sb.CopiesEqual d'

/-- Between `d` and `d'` the chain `l` was extended to `l'` with clusters that were free. -/
structure Grown (d d' : Disk) (l l' : List Nat) : Prop where
  pre : l <+: l'
  fresh : ∀ x ∈ l', x ∉ l → sb.Free d x
  fat : ∀ x < sb.clusterCount + 2, x ∉ l' → sb.getFatEntry d' x = sb.getFatEntry d x
  data : ∀ a, sb.rootDirStart * 512 ≤ a → (∀ x ∈ l', x ∉ l → ¬ sb.InCluster x a) → d' a = d a
  zero : ∀ x ∈ l', x ∉ l → ∀ a, sb.InCluster x a → d' a = 0
  copies : sb.CopiesEqual d → sb.CopiesEqual d'
  same : l' = l → d' = d

variable {sb} {c x n i v w : Nat} {d d' d'' : Disk} {l l' m : List Nat}

theorem link_functional (a b b' : Nat) (h : sb.Link d a b) (h' : sb.Link d a b') : b = b' := by
  have heq := h.2.symm.trans h'.2
  cases heq
  rfl

theorem not_link_zero (b : Nat) : ¬ sb.Link d 0 b := by
  intro h
  have := h.1.1
  omega

theorem Chain.unique (h : sb.Chain d c l) (h' : sb.Chain d c m) : l = m :=
  Path.unique link_functional not_link_zero h h'

theorem Chain.nodup (h : sb.Chain d c l) : l.Nodup :=
  Path.nodup link_functional not_link_zero h

theorem Chain.isCluster (h : sb.Chain d c l) (hx : x ∈ l) : sb.IsCluster x := by
  obtain ⟨n, hn⟩ := Path.exists_next h hx
  exact hn.1

theorem chain_zero : sb.Chain d 0 l ↔ l = [] := by
  constructor
  · intro h
    cases l with
    | nil => rfl
    | cons x l =>
      obtain ⟨rfl, n, hn, -⟩ := h
      exact absurd hn (not_link_zero n)
  · rintro rfl
    exact rfl

theorem Chain.head_ne_zero (h : sb.Chain d c (x :: l)) : c ≠ 0 := by
  obtain ⟨rfl, n, hn, -⟩ := h
  have := hn.1.1
  omega

/-- A chain visits each cluster at most once, so it is no longer than the data area. -/
theorem Chain.length_le (h : sb.Chain d c l) : l.length ≤ sb.clusterCount := by
  have hsub : l.toFinset ⊆ Finset.Ico 2 (sb.clusterCount + 2) := by
    intro x hx
    have hc := h.isCluster (List.mem_toFinset.mp hx)
    exact Finset.mem_Ico.mpr hc
  have hcard := Finset.card_le_card hsub
  rw [List.toFinset_card_of_nodup h.nodup, Nat.card_Ico] at hcard
  omega

theorem fatNextCluster_congr (h : sb.getFatEntry d' x = sb.getFatEntry d x) :
    fatNextCluster sb d' x = fatNextCluster sb d x := by
  rw [fatNextCluster, fatNextCluster, h]

theorem Chain.congr (h : sb.Chain d c l)
    (hfat : ∀ x ∈ l, sb.getFatEntry d' x = sb.getFatEntry d x) : sb.Chain d' c l :=
  Path.congr h fun x hx n hn => ⟨hn.1, by rw [fatNextCluster_congr (hfat x hx), hn.2]⟩

theorem Link.entry (h : sb.Link d c n) : ∃ w, sb.getFatEntry d c = .ok w ∧ w ≠ 0 := by
  obtain ⟨-, h⟩ := h
  cases hv : sb.getFatEntry d c with
  | error e => simp [fatNextCluster, hv, bind, Except.bind] at h
  | ok w =>
    refine ⟨w, rfl, ?_⟩
    rintro rfl
    have hz : isEoc sb.type 0 = false := by cases sb.type <;> decide
    simp [fatNextCluster, hv, bind, Except.bind, hz] at h

theorem Free.not_link (h : sb.Free d c) : ¬ sb.Link d c n := by
  intro hl
  obtain ⟨w, hw, hne⟩ := hl.entry
  rw [h.2] at hw
  cases hw
  exact hne rfl

theorem Free.not_mem (h : sb.Free d x) (hl : sb.Chain d c l) : x ∉ l := by
  intro hx
  obtain ⟨n, hn⟩ := Path.exists_next hl hx
  exact h.not_link hn

theorem link_of_eoc (hc : sb.IsCluster c) (h : sb.getFatEntry d c = .ok (fatEocMarker sb)) :
    sb.Link d c 0 := by
  refine ⟨hc, ?_⟩
  simp [fatNextCluster, h, bind, Except.bind, sb.isEoc_eocMarker]

theorem link_of_cluster (hc : sb.IsCluster c) (hn : sb.IsCluster n)
    (h : sb.getFatEntry d c = .ok n) : sb.Link d c n := by
  refine ⟨hc, ?_⟩
  have := hn.1
  have := hn.2
  simp only [fatNextCluster, h, bind, Except.bind, hn.entry.2, Bool.false_eq_true, if_false]
  rw [if_neg (by omega)]

theorem setFatEntry_of_get (hi : sb.IsCluster i) (hg : sb.getFatEntry d i = .ok w)
    (hv : v < 2 ^ sb.type.width) : ∃ d', sb.setFatEntry d i v = .ok d' ∧ sb.EntrySet d d' i v := by
  rcases setFatEntry_cases (d := d) hi.2 hv with ⟨hin, d', hd', hu⟩ | ⟨hin, -⟩
  · refine ⟨d', hd', fun x hx => ?_, fun a ha => hu.outside a (.inr ha), hu.copies⟩
    rw [hu.getFatEntry hx]
    by_cases hxi : x = i
    · subst hxi
      rw [if_pos ⟨rfl, hin⟩, if_pos rfl]
    · rw [if_neg fun h => hxi h.1, if_neg hxi]
  · rw [getFatEntry_of_tests hi.2 hin] at hg
    cases hg

end FatSuper

end CfKernel.Fat
