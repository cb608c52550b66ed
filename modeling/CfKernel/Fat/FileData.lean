import CfKernel.Fat.File

/-!
# The bytes of a file

Byte `i` of a file sits at `fileAddr l i`, where `l` is its chain. The loops of `fat_truncate_vn`
and `fat_write_vn` go through the file a cluster part at a time; what they change is exactly the
bytes of a range of positions (`Touched`).
-/

namespace CfKernel.Fat

open Lib Lib.Eff

namespace FatSuper

def fileAddr (sb : FatSuper) (l : List Nat) (i : Nat) : Nat :=
  sb.clusterAddr (l.getD (i / sb.clusterSize) 0) + i % sb.clusterSize

/-- `d'` differs from `d` at most in the file bytes at positions `lo` to `hi`. -/
def Touched (sb : FatSuper) (d d' : Disk) (l : List Nat) (lo hi : Nat) : Prop :=
  ∀ a, (∀ i, lo ≤ i → i < hi → a ≠ sb.fileAddr l i) → d' a = d a

variable {sb : FatSuper} {c x n i j k lo hi cur amount newSize off len done : Nat}
variable {d d' d'' : Disk} {l : List Nat} {s : FatState} {src buf : Bytes}

section

variable (h : i < l.length * sb.clusterSize)
include h

theorem index_lt : i / sb.clusterSize < l.length :=
  Nat.div_lt_of_lt_mul (by rwa [Nat.mul_comm])

theorem getElem?_index : l[i / sb.clusterSize]? = some (l.getD (i / sb.clusterSize) 0) := by
  rw [List.getD_eq_getElem?_getD, List.getElem?_eq_getElem (index_lt h), Option.getD_some]

theorem getD_index_mem : l.getD (i / sb.clusterSize) 0 ∈ l :=
  List.mem_of_getElem? (getElem?_index h)

end

theorem fileAddr_inCluster (sb : FatSuper) (l : List Nat) (i : Nat) :
    sb.InCluster (l.getD (i / sb.clusterSize) 0) (sb.fileAddr l i) :=
  ⟨Nat.le_add_right _ _, Nat.add_lt_add_left (Nat.mod_lt _ sb.clusterSize_pos) _⟩

theorem fileAddr_add (h : i % sb.clusterSize + k < sb.clusterSize) :
    sb.fileAddr l (i + k) = sb.fileAddr l i + k := by
  have hk : k < sb.clusterSize := by omega
  have hdiv : (i + k) / sb.clusterSize = i / sb.clusterSize := by
    rw [Nat.add_div sb.clusterSize_pos, Nat.div_eq_of_lt hk, Nat.mod_eq_of_lt hk, if_neg (by omega)]
    rfl
  have hmod : (i + k) % sb.clusterSize = i % sb.clusterSize + k := by
    rw [Nat.add_mod, Nat.mod_eq_of_lt hk, Nat.mod_eq_of_lt h]
  rw [fileAddr, fileAddr, hdiv, hmod, Nat.add_assoc]

/-- A chain has no repeated cluster, so no two positions share a byte. -/
theorem fileAddr_inj (hl : sb.Chain d c l) (hi : i < l.length * sb.clusterSize)
    (hj : j < l.length * sb.clusterSize) (h : sb.fileAddr l i = sb.fileAddr l j) : i = j := by
  have hci := hl.isCluster (getD_index_mem hi)
  have hcj := hl.isCluster (getD_index_mem hj)
  have hin := sb.fileAddr_inCluster l j
  rw [← h] at hin
  have hx := inCluster_unique hci hcj (sb.fileAddr_inCluster l i) hin
  have hget : l[i / sb.clusterSize]? = l[j / sb.clusterSize]? := by
    rw [getElem?_index hi, getElem?_index hj, hx]
  have hdiv := (List.getElem?_inj (index_lt hi) hl.nodup).mp hget
  have hmod : i % sb.clusterSize = j % sb.clusterSize := by
    rw [fileAddr, fileAddr, hx] at h
    exact Nat.add_left_cancel h
  rw [← Nat.div_add_mod i sb.clusterSize, ← Nat.div_add_mod j sb.clusterSize, hdiv, hmod]

theorem fileAddr_ge (sb : FatSuper) (l : List Nat) (i : Nat) :
    sb.rootDirStart * 512 ≤ sb.fileAddr l i :=
  (sb.fileAddr_inCluster l i).ge

theorem Touched.refl (sb : FatSuper) (d : Disk) (l : List Nat) (lo hi : Nat) :
    sb.Touched d d l lo hi := fun _ _ => rfl

theorem Touched.trans {mid : Nat} (h : sb.Touched d d' l lo mid) (h' : sb.Touched d' d'' l mid hi)
    (hlo : lo ≤ mid) (hhi : mid ≤ hi) : sb.Touched d d'' l lo hi := fun a ha => by
  rw [h' a fun i h1 h2 => ha i (hlo.trans h1) h2, h a fun i h1 h2 => ha i h1 (h2.trans_le hhi)]

section

variable (h : sb.Touched d d' l lo hi)
include h

theorem Touched.mono {lo' hi' : Nat} (hlo : lo' ≤ lo)
    (hhi : hi ≤ hi') : sb.Touched d d' l lo' hi' :=
  fun a ha => h a fun i h1 h2 => ha i (hlo.trans h1) (h2.trans_le hhi)

theorem Touched.before_data : ∀ a < sb.rootDirStart * 512, d' a = d a := fun a ha =>
  h a fun i _ _ he => absurd (sb.fileAddr_ge l i) (by omega)

theorem Touched.outside (hhi : hi ≤ l.length * sb.clusterSize)
    {a : Nat} (ha : ∀ x ∈ l, ¬ sb.InCluster x a) : d' a = d a :=
  h a fun i _ h2 he =>
    ha _ (getD_index_mem (h2.trans_le hhi)) (he ▸ sb.fileAddr_inCluster l i)

theorem Touched.byte (hhi : hi ≤ l.length * sb.clusterSize)
    (hl : sb.Chain d c l) (hi' : i < l.length * sb.clusterSize) (hout : i < lo ∨ hi ≤ i) :
    d' (sb.fileAddr l i) = d (sb.fileAddr l i) :=
  h _ fun j h1 h2 he => by
    have := fileAddr_inj hl hi' (h2.trans_le hhi) he
    omega

theorem Touched.chain {m : List Nat} (hl : sb.Chain d c m) : sb.Chain d' c m :=
  hl.congr fun x _ => getFatEntry_congr h.before_data x

end

theorem touched_splice (h : cur % sb.clusterSize + amount ≤ sb.clusterSize) :
    sb.Touched d (splice d (sb.fileAddr l cur) amount src) l cur (cur + amount) := by
  intro a ha
  refine splice_outside ?_
  by_contra hin
  refine ha (cur + (a - sb.fileAddr l cur)) (by omega) (by omega) ?_
  rw [fileAddr_add (by omega)]
  omega

theorem splice_fileAddr (h : cur % sb.clusterSize + amount ≤ sb.clusterSize) (h1 : cur ≤ i)
    (h2 : i < cur + amount) :
    splice d (sb.fileAddr l cur) amount src (sb.fileAddr l i) = src (i - cur) := by
  obtain ⟨k, rfl⟩ := Nat.exists_eq_add_of_le h1
  rw [fileAddr_add (by omega), splice_at_add (by omega), Nat.add_sub_cancel_left]

theorem rmwCluster (hx : sb.IsCluster x) (d : Disk) (src : Bytes) {o : Nat}
    (h : o + amount ≤ sb.clusterSize) :
    (do let data ← fatReadCluster sb d x; fatWriteCluster sb d x (splice data o amount src)) =
      .ok (splice d (sb.clusterAddr x + o) amount src) := by
  rw [hx.readCluster]
  simp only [bind, Except.bind]
  rw [hx.writeCluster, splice_window_splice _ _ h]

theorem chunk_le (sb : FatSuper) (cur m : Nat) :
    cur % sb.clusterSize + min (sb.clusterSize - cur % sb.clusterSize) m ≤ sb.clusterSize := by
  have := Nat.mod_lt cur sb.clusterSize_pos
  omega

theorem chunk_pos (sb : FatSuper) (cur : Nat) {m : Nat} (hm : 0 < m) :
    0 < min (sb.clusterSize - cur % sb.clusterSize) m := by
  have := Nat.mod_lt cur sb.clusterSize_pos
  omega

theorem fatZeroStep_run (newSize : Nat) (hl : sb.Chain s.disk s.node.firstCluster l)
    (hcur : cur < l.length * sb.clusterSize)
    (hamt : min (sb.clusterSize - cur % sb.clusterSize) (newSize - cur) = amount) :
    ∃ mem, fatZeroStep sb newSize cur s = (.ok (cur + amount),
        { s with disk := splice s.disk (sb.fileAddr l cur) amount fun _ => 0, mem := mem }) ∨
      fatZeroStep sb newSize cur s = (.error .outOfMemory, { s with mem := mem }) := by
  have hx := hl.isCluster (getD_index_mem hcur)
  have hens := fatEnsureCluster_existing hl (getElem?_index hcur)
  have hfit := sb.chunk_le cur (newSize - cur)
  rw [hamt] at hfit
  by_cases hwhole : cur % sb.clusterSize = 0 ∧ amount = sb.clusterSize
  · refine ⟨s.mem, .inl ?_⟩
    have hw := hx.writeCluster (d := s.disk) fun _ => 0
    rw [fatZeroStep, bind_ok hens]
    simp only [hamt]
    rw [if_pos hwhole, bind_ok (toDisk_run hw), fileAddr, hwhole.1, hwhole.2, Nat.add_zero]
    rfl
  · obtain ⟨mem, hm | hm⟩ := malloc_cases s
    · refine ⟨mem, .inl ?_⟩
      have hw := rmwCluster hx s.disk (fun _ => 0) hfit
      rw [fatZeroStep, bind_ok hens]
      simp only [hamt]
      rw [if_neg hwhole, bind_ok ((bind_ok hm).trans (toDisk_run hw))]
      rfl
    · refine ⟨mem, .inr ?_⟩
      rw [fatZeroStep, bind_ok hens]
      simp only [hamt]
      rw [if_neg hwhole, bind_error (e := .outOfMemory) (t := { s with mem := mem })]
      rw [bind_error hm]

theorem fatZeroLoop_spec (cur : Nat) (hl : sb.Chain s.disk s.node.firstCluster l)
    (hnew : newSize ≤ l.length * sb.clusterSize) (hn : newSize - cur ≤ n) :
    ∃ d' mem, sb.Touched s.disk d' l cur (max cur newSize) ∧
      ((fatZeroLoop sb newSize n cur s = (.ok (), { s with disk := d', mem := mem }) ∧
          ∀ i, cur ≤ i → i < newSize → d' (sb.fileAddr l i) = 0) ∨
        fatZeroLoop sb newSize n cur s = (.error .outOfMemory,
          { s with disk := d', mem := mem })) := by
  induction n generalizing cur s with
  | zero =>
    exact ⟨s.disk, s.mem, Touched.refl _ _ _ _ _, .inl ⟨rfl, fun i h1 h2 => by omega⟩⟩
  | succ n ih =>
    by_cases hlt : cur < newSize
    · have hpos := sb.chunk_pos cur (m := newSize - cur) (by omega)
      have hfit := sb.chunk_le cur (newSize - cur)
      have hle : min (sb.clusterSize - cur % sb.clusterSize) (newSize - cur) ≤ newSize - cur :=
        Nat.min_le_right _ _
      have hcur : cur < l.length * sb.clusterSize := by omega
      obtain ⟨mem, hstep | hstep⟩ := fatZeroStep_run newSize hl hcur rfl
      all_goals
        generalize min (sb.clusterSize - cur % sb.clusterSize) (newSize - cur) = amount at *
      · have ht : sb.Touched s.disk (splice s.disk (sb.fileAddr l cur) amount fun _ => 0) l cur
            (cur + amount) := touched_splice hfit
        obtain ⟨d', mem', ht', hres⟩ := ih (cur + amount) (s :=
          { s with disk := splice s.disk (sb.fileAddr l cur) amount fun _ => 0, mem := mem })
          (ht.chain hl) (by omega)
        refine ⟨d', mem', (ht.trans ht' (by omega) (by omega)).mono le_rfl (by omega), ?_⟩
        rw [fatZeroLoop, if_pos hlt, bind_ok hstep]
        rcases hres with ⟨hrun, hzero⟩ | hrun
        · refine .inl ⟨hrun, fun i h1 h2 => ?_⟩
          by_cases hi : i < cur + amount
          · rw [ht'.byte (by omega) (ht.chain hl) (by omega) (.inl hi)]
            change splice s.disk (sb.fileAddr l cur) amount (fun _ => 0) (sb.fileAddr l i) = 0
            rw [splice_fileAddr hfit h1 hi]
          · exact hzero i (by omega) h2
        · exact .inr hrun
      · refine ⟨s.disk, mem, Touched.refl _ _ _ _ _, .inr ?_⟩
        rw [fatZeroLoop, if_pos hlt, bind_error hstep]
    · refine ⟨s.disk, s.mem, Touched.refl _ _ _ _ _, .inl ⟨?_, fun i h1 h2 => by omega⟩⟩
      rw [fatZeroLoop, if_neg hlt]
      rfl

theorem fatWriteStep_run (buf : Bytes) (len : Nat)
    (hl : sb.Chain s.disk s.node.firstCluster l) (hcur : off + done < l.length * sb.clusterSize)
    (hamt : min (sb.clusterSize - (off + done) % sb.clusterSize) (len - done) = amount) :
    fatWriteStep sb buf off len done s = (.ok (done + amount), { s with
      disk := splice s.disk (sb.fileAddr l (off + done)) amount (window buf done) }) := by
  have hx := hl.isCluster (getD_index_mem hcur)
  have hens := fatEnsureCluster_existing hl (getElem?_index hcur)
  have hfit := sb.chunk_le (off + done) (len - done)
  rw [hamt] at hfit
  have hw := rmwCluster hx s.disk (window buf done) hfit
  rw [fatWriteStep, bind_ok hens]
  simp only [hamt]
  rw [bind_ok (toDisk_run hw)]
  rfl

theorem fatWriteLoop_spec (buf : Bytes) (n done : Nat) (hl : sb.Chain s.disk s.node.firstCluster l)
    (hend : off + len ≤ l.length * sb.clusterSize) (hdone : done ≤ len) (hn : len - done ≤ n) :
    ∃ d', sb.Touched s.disk d' l (off + done) (off + len) ∧
      fatWriteLoop sb buf off len n done s = (.ok (.ok (), len), { s with disk := d' }) ∧
      ∀ i, off + done ≤ i → i < off + len → d' (sb.fileAddr l i) = buf (i - off) := by
  induction n generalizing done s with
  | zero =>
    obtain rfl : done = len := by omega
    exact ⟨s.disk, Touched.refl _ _ _ _ _, rfl, fun i h1 h2 => by omega⟩
  | succ n ih =>
    by_cases hlt : done < len
    · have hpos := sb.chunk_pos (off + done) (m := len - done) (by omega)
      have hfit := sb.chunk_le (off + done) (len - done)
      have hle : min (sb.clusterSize - (off + done) % sb.clusterSize) (len - done) ≤ len - done :=
        Nat.min_le_right _ _
      have hcur : off + done < l.length * sb.clusterSize := by omega
      have hstep := fatWriteStep_run buf len hl hcur rfl
      generalize min (sb.clusterSize - (off + done) % sb.clusterSize) (len - done) = amount at *
      have ht : sb.Touched s.disk
          (splice s.disk (sb.fileAddr l (off + done)) amount (window buf done)) l (off + done)
          (off + done + amount) := touched_splice hfit
      obtain ⟨d', ht', hrun, hval⟩ := ih (done + amount)
        (s := { s with
          disk := splice s.disk (sb.fileAddr l (off + done)) amount (window buf done) })
        (ht.chain hl) (by omega) (by omega)
      rw [← Nat.add_assoc] at ht' hval
      refine ⟨d', ht.trans ht' (by omega) (by omega), ?_, fun i h1 h2 => ?_⟩
      · rw [fatWriteLoop, if_pos hlt, bind_ok (attempt_run hstep)]
        exact hrun
      · by_cases hi : i < off + done + amount
        · rw [ht'.byte hend (ht.chain hl) (by omega) (.inl hi)]
          refine (splice_fileAddr hfit h1 hi).trans ?_
          rw [window_apply]
          exact congrArg buf (by omega)
        · exact hval i (by omega) h2
    · obtain rfl : done = len := by omega
      refine ⟨s.disk, Touched.refl _ _ _ _ _, ?_, fun i h1 h2 => by omega⟩
      rw [fatWriteLoop, if_neg hlt]
      rfl

end FatSuper

end CfKernel.Fat
