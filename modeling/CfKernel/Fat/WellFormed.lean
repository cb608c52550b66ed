import CfKernel.Fat.DirOps
import CfKernel.Fat.FileRead

/-!
# Well-formed volumes

The directories of a volume are the root and the live directory entries other than `.` and `..`
below it. On a well-formed volume every live entry has a chain, different entries have disjoint
chains, a file's chain covers its size, and the FAT copies agree.
-/

namespace CfKernel.Fat

open Lib Lib.Eff

def entryCluster (d : Disk) (a : Nat) : Nat := (nodeAt d a).firstCluster

def entrySize (d : Disk) (a : Nat) : Nat := (nodeAt d a).size

def entryIsDir (d : Disk) (a : Nat) : Bool := (nodeAt d a).isDir

def entryIsDot (d : Disk) (a : Nat) : Bool := isDotName (entryName d a)

theorem entryIsDir_congr {d d' : Disk} {a : Nat} (h : d' (a + 11) = d (a + 11)) :
    entryIsDir d' a = entryIsDir d a := by
  change decide (d' (a + 11) &&& 0x10 ≠ 0) = decide (d (a + 11) &&& 0x10 ≠ 0)
  rw [h]

theorem entryName_congr {d d' : Disk} {a : Nat} (h : ∀ k < 11, d' (a + k) = d (a + k)) :
    entryName d' a = entryName d a := by
  simp only [entryName, direntAt]
  refine congrArg fatNameToStr (List.map_congr_left fun i hi => h i (List.mem_range.mp hi))

theorem find?_name_congr {d d' : Disk} {q : List Nat}
    (h : ∀ b ∈ q, entryName d' b = entryName d b) (name : List UInt8) :
    q.find? (fun b => strcasecmpEq (entryName d' b) name) =
      q.find? fun b => strcasecmpEq (entryName d b) name := by
  induction q with
  | nil => rfl
  | cons y q ih =>
    rw [List.find?_cons, List.find?_cons, h y (by simp), ih fun b hb => h b (by simp [hb])]

theorem nodeAt_congr {d d' : Disk} {a : Nat} (h : ∀ k < 32, d' (a + k) = d (a + k)) :
    nodeAt d' a = nodeAt d a := by
  rw [nodeAt, nodeAt, direntAt_congr h]

namespace FatSuper

variable (sb : FatSuper) (d : Disk)

/-- `LiveDir o c`: the root (`none`) or the entry in slot `o` is a directory that a walk from the
root reaches, and `c` is its first cluster. -/
inductive LiveDir : Option Nat → Nat → Prop where
  | root : LiveDir none (fatRootNode sb).firstCluster
  | sub {o : Option Nat} {c a : Nat} {slots : List Nat} : LiveDir o c → sb.DirSlots d c slots →
      a ∈ liveSlots d slots → entryIsDir d a = true → entryIsDot d a = false →
      entryCluster d a ≠ 0 → LiveDir (some a) (entryCluster d a)

def LiveEntry (a : Nat) : Prop :=
  ∃ o c slots, sb.LiveDir d o c ∧ sb.DirSlots d c slots ∧ a ∈ liveSlots d slots

/-- What owns a chain: the FAT32 root, and every live entry other than `.` and `..`. -/
inductive Holder : Option Nat → Nat → Prop where
  | root : sb.type = .fat32 → Holder none sb.rootCluster
  | entry {a : Nat} : sb.LiveEntry d a → entryIsDot d a = false →
      Holder (some a) (entryCluster d a)

structure WellFormed : Prop where
  chain : ∀ o c, sb.Holder d o c → ∃ l, sb.Chain d c l
  disjoint : ∀ o o' c c' l l', sb.Holder d o c → sb.Holder d o' c' → o ≠ o' → sb.Chain d c l →
    sb.Chain d c' l' → l.Disjoint l'
  covers : ∀ a l, sb.LiveEntry d a → entryIsDot d a = false → entryIsDir d a = false →
    0 < entrySize d a → sb.Chain d (entryCluster d a) l →
    (entrySize d a + sb.clusterSize - 1) / sb.clusterSize ≤ l.length
  copies : sb.CopiesEqual d

variable {sb d} {a b c c' x : Nat} {o o' : Option Nat} {l l' slots slots' : List Nat} {d' : Disk}
variable {s : FatState}

theorem LiveDir.holder (h : sb.LiveDir d o c) (hc : c ≠ 0) : sb.Holder d o c := by
  cases h with
  | root =>
    unfold fatRootNode at hc ⊢
    split_ifs at hc ⊢ with ht
    · exact .root ht
    · exact absurd rfl hc
  | sub hdir hslots ha _ hdot _ => exact .entry ⟨_, _, _, hdir, hslots, ha⟩ hdot

theorem LiveDir.cluster_unique (h : sb.LiveDir d o c) (h' : sb.LiveDir d o c') : c = c' := by
  cases h <;> cases h' <;> rfl

theorem Holder.cluster_unique (h : sb.Holder d o c) (h' : sb.Holder d o c') : c = c' := by
  cases h <;> cases h' <;> rfl

theorem LiveDir.isDir (h : sb.LiveDir d (some a) c) : entryIsDir d a = true := by
  cases h
  assumption

theorem LiveDir.liveEntry (h : sb.LiveDir d (some a) c) : sb.LiveEntry d a := by
  cases h with
  | sub hd hs ha _ _ _ => exact ⟨_, _, _, hd, hs, ha⟩

theorem DirSlots.mem_cluster (h : sb.DirSlots d c slots) (hc : c ≠ 0) (ha : a ∈ slots) :
    ∃ l x, sb.Chain d c l ∧ x ∈ l ∧ a ∈ sb.clusterSlots x := by
  cases h with
  | root _ => exact absurd rfl hc
  | chain _ hl =>
    obtain ⟨x, hx, hax⟩ := mem_chainSlots.mp ha
    exact ⟨_, x, hl, hx, hax⟩

theorem DirSlots.root_lt (h : sb.DirSlots d 0 slots) (ha : a ∈ slots) {k : Nat} (hk : k < 32) :
    a + k < sb.dataStart * 512 := by
  cases h with
  | root _ =>
    have := (mem_rootSlots ha).2.2
    omega
  | chain hc _ => exact absurd rfl hc

/-- No holder but `o` has cluster `x` in its chain. -/
def NotOthers (sb : FatSuper) (d : Disk) (o : Option Nat) (x : Nat) : Prop :=
  ∀ o' c m, sb.Holder d o' c → o' ≠ o → sb.Chain d c m → x ∉ m

theorem Free.notOthers (h : sb.Free d x) : sb.NotOthers d o x := fun _ _ _ _ _ hm =>
  h.not_mem hm

/-- A directory's slots lie outside the clusters that only some other holder may have. -/
theorem LiveDir.slot_apart (h : sb.LiveDir d o c) (hs : sb.DirSlots d c slots) (ha : a ∈ slots)
    (hx : sb.IsCluster x) (hno : sb.NotOthers d o' x) (hne : o ≠ o') {k : Nat} (hk : k < 32) :
    ¬ sb.InCluster x (a + k) := by
  intro hin
  by_cases hc : c = 0
  · subst hc
    have := hs.root_lt ha hk
    have := hin.ge_data
    omega
  · obtain ⟨m, y, hm, hy, hay⟩ := hs.mem_cluster hc ha
    have heq := inCluster_unique hx (hm.isCluster hy) hin ((mem_clusterSlots hay).2 k hk)
    exact hno o c m (h.holder hc) hne hm (heq ▸ hy)

namespace WellFormed

variable (hwf : sb.WellFormed d)

include hwf

theorem notOthers (ho : sb.Holder d o c) (hl : sb.Chain d c l) (hx : x ∈ l) :
    sb.NotOthers d o x := fun o' c' m ho' hne hm hxm =>
  hwf.disjoint o' o c' c m l ho' ho hne hm hl hxm hx

theorem dirSlots (h : sb.LiveDir d o c) : ∃ slots, sb.DirSlots d c slots := by
  by_cases hc : c = 0
  · cases h with
    | root =>
      unfold fatRootNode at hc ⊢
      split_ifs at hc ⊢ with ht
      · have := (sb.sound.fat32 ht).2.1
        have hc' : sb.rootCluster = 0 := hc
        omega
      · exact ⟨_, .root ht⟩
    | sub _ _ _ _ _ hne => exact absurd hc hne
  · obtain ⟨l, hl⟩ := hwf.chain o c (h.holder hc)
    exact ⟨_, .chain hc hl⟩

theorem slot_apart (h : sb.LiveDir d o c) (hs : sb.DirSlots d c slots) (ha : a ∈ slots)
    (ho : sb.Holder d o' c') (hne : o' ≠ o) (hl : sb.Chain d c' l) (hx : x ∈ l) {k : Nat}
    (hk : k < 32) : ¬ sb.InCluster x (a + k) :=
  h.slot_apart hs ha (hl.isCluster hx) (hwf.notOthers ho hl hx) hne.symm hk

theorem slot_owner (h : sb.LiveDir d o c) (h' : sb.LiveDir d o' c') (hs : sb.DirSlots d c slots)
    (hs' : sb.DirSlots d c' slots') (ha : a ∈ slots) (ha' : a ∈ slots') : o = o' := by
  by_contra hne
  by_cases hc : c = 0
  · subst hc
    have hlt := hs.root_lt ha (k := 0) (by decide)
    by_cases hc' : c' = 0
    · -- only the fixed root has first cluster zero
      subst hc'
      have hroot : ∀ {o : Option Nat} {c : Nat}, sb.LiveDir d o c → c = 0 → o = none := by
        intro o c hd hc
        cases hd with
        | root => rfl
        | sub _ _ _ _ _ hne => exact absurd hc hne
      exact hne ((hroot h rfl).trans (hroot h' rfl).symm)
    · obtain ⟨m, y, hm, hy, hay⟩ := hs'.mem_cluster hc' ha'
      have := ((mem_clusterSlots hay).2 0 (by decide)).ge_data
      omega
  · obtain ⟨m, y, hm, hy, hay⟩ := hs.mem_cluster hc ha
    exact hwf.slot_apart h' hs' ha' (h.holder hc) hne hm hy (k := 0) (by decide)
      ((mem_clusterSlots hay).2 0 (by decide))

end WellFormed

/-- A volume stays well formed when each holder afterwards has a chain made of clusters of its old
chain, and only one holder took clusters besides, from no other chain. -/
theorem WellFormed.of_holders (hwf : sb.WellFormed d) (o₀ : Option Nat)
    (hhold : ∀ o c, sb.Holder d' o c → ∃ m, sb.Chain d' c m ∧
      (∀ x ∈ m, (∃ c₀ m₀, sb.Holder d o c₀ ∧ sb.Chain d c₀ m₀ ∧ x ∈ m₀) ∨
        (o = o₀ ∧ sb.NotOthers d o₀ x)) ∧
      ∀ b, o = some b → entryIsDir d' b = false → entrySize d' b ≤ m.length * sb.clusterSize)
    (hcopies : sb.CopiesEqual d') : sb.WellFormed d' where
  chain o c ho := by
    obtain ⟨m, hm, -⟩ := hhold o c ho
    exact ⟨m, hm⟩
  disjoint o o' c c' l l' ho ho' hne hl hl' x hx hx' := by
    obtain ⟨m, hm, hown, -⟩ := hhold o c ho
    obtain ⟨m', hm', hown', -⟩ := hhold o' c' ho'
    cases hl.unique hm
    cases hl'.unique hm'
    rcases hown x hx with ⟨c₀, m₀, hh, hc, hxm⟩ | ⟨rfl, hf⟩
    · rcases hown' x hx' with ⟨c₁, m₁, hh', hc', hxm'⟩ | ⟨rfl, hf⟩
      · exact hwf.disjoint o o' _ _ _ _ hh hh' hne hc hc' hxm hxm'
      · exact hf o c₀ m₀ hh hne hc hxm
    · rcases hown' x hx' with ⟨c₁, m₁, hh', hc', hxm'⟩ | ⟨rfl, -⟩
      · exact hf o' c₁ m₁ hh' (Ne.symm hne) hc' hxm'
      · exact hne rfl
  covers a l ha hdot hfile _ hl := by
    obtain ⟨m, hm, -, hcov⟩ := hhold _ _ (.entry ha hdot)
    cases hl.unique hm
    have hpos := sb.clusterSize_pos
    have hle := hcov a rfl hfile
    rw [← Nat.lt_succ_iff]
    refine Nat.div_lt_of_lt_mul ?_
    rw [Nat.mul_succ, Nat.mul_comm]
    omega
  copies := hcopies

theorem WellFormed.covers_mul (hwf : sb.WellFormed d) (ha : sb.LiveEntry d a)
    (hdot : entryIsDot d a = false) (hfile : entryIsDir d a = false)
    (hl : sb.Chain d (entryCluster d a) l) : entrySize d a ≤ l.length * sb.clusterSize := by
  by_cases h0 : 0 < entrySize d a
  · exact (sb.le_keepCount _).trans
      (Nat.mul_le_mul_right _ (hwf.covers a l ha hdot hfile h0 hl))
  · exact (Nat.eq_zero_of_not_pos h0).le.trans (Nat.zero_le _)

theorem entrySize_lt (d : Disk) (a : Nat) : entrySize d a < 2 ^ 32 := le32_lt d (a + 28)

/-- The entry in slot `a` has the vnode's cluster and size. Only after a failed extension of an
empty file the vnode has clusters that the entry does not show. -/
def Tracked (s : FatState) (a : Nat) : Prop :=
  Synced s a ∨ (entryCluster s.disk a = 0 ∧ entrySize s.disk a = 0 ∧ s.node.size = 0)

/-- The calling vnode is open on the live entry in slot `a`, and `l` is its chain. -/
structure Attached (sb : FatSuper) (s : FatState) (a : Nat) (l : List Nat) : Prop where
  file : sb.FileAt s a l
  live : sb.LiveEntry s.disk a
  notDot : entryIsDot s.disk a = false
  attr : s.node.attr = (nodeAt s.disk a).attr
  entry : Tracked s a
  mine : ∀ x ∈ l, sb.NotOthers s.disk (some a) x

theorem attached_of_lookup (hwf : sb.WellFormed s.disk)
    (hlive : sb.LiveEntry s.disk a) (hdot : entryIsDot s.disk a = false)
    (hnode : s.node = nodeAt s.disk a) (hfile : s.node.isDir = false) : ∃ l, sb.Attached s a l := by
  have hfile' : entryIsDir s.disk a = false := by rw [entryIsDir, ← hnode, hfile]
  obtain ⟨l, hl⟩ := hwf.chain _ _ (.entry hlive hdot)
  refine ⟨l, ?_, hlive, hdot, by rw [hnode], .inl (by rw [Synced, hnode]; exact ⟨rfl, rfl⟩),
    fun x hx => hwf.notOthers (.entry hlive hdot) hl hx⟩
  obtain ⟨o, c, slots, hdir, hslots, ha⟩ := id hlive
  have ha' := mem_of_mem_liveSlots ha
  refine ⟨?_, ?_, ?_, hfile, hslots.slot ha', ?_, ?_, ?_, ?_⟩
  · rw [hnode]
    exact hl
  · rw [hnode]
    exact hwf.covers_mul hlive hdot hfile' hl
  · rw [hnode]
    exact entrySize_lt s.disk a
  · rw [hnode]
    rfl
  · rw [hnode]
    rfl
  · rw [hnode]
    rfl
  · rintro x (hx | hx) k hk
    · refine hwf.slot_apart hdir hslots ha' (.entry hlive hdot) ?_ hl hx hk
      rintro rfl
      rw [hdir.isDir] at hfile'
      cases hfile'
    · exact hslots.apart ha' hx hk

theorem Attached.isFile (h : sb.Attached s a l) : entryIsDir s.disk a = false := by
  rw [← h.file.file, FatNode.isDir, h.attr]
  rfl

theorem Attached.node_eq (h : sb.Attached s a l) (hs : Synced s a) : nodeAt s.disk a = s.node := by
  have hattr := h.attr
  have hd := h.file.hasDirent
  have hsec := h.file.sector
  have hoff := h.file.offset
  obtain ⟨hcl, hsz⟩ := hs
  revert hattr hd hsec hoff hcl hsz
  rcases s.node with ⟨_, _, _, _, _, _⟩
  rintro rfl rfl rfl rfl rfl rfl
  rfl

end FatSuper

end CfKernel.Fat
