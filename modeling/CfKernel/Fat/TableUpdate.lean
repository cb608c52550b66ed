import CfKernel.Fat.TableSpec

/-!
# Setting an entry in every copy of the table

`set_fat_entry` succeeds exactly on the indices inside the table as the code measures it, and then
changes one entry in each copy and nothing else. The size test multiplies in 32 bits while
`fat_probe_type` multiplies in 64, so a FAT32 table of four gigabytes or more can fail it.
-/

namespace CfKernel.Fat

open Lib

namespace FatSuper

variable {sb : FatSuper} {i j v copy n : Nat} {d d' : Disk}

/-- The disk after the first `n` turns of the copy loop. -/
def putCopies (sb : FatSuper) (d : Disk) (i v : Nat) : Nat → Disk
  | 0 => d
  | n + 1 => sb.type.putEntry (putCopies sb d i v n) (sb.fatBase n) i v

section

variable (hi : i < sb.clusterCount + 2)
include hi

theorem setFatEntry_ok (hin : sb.InTable i) (hv : v < 2 ^ sb.type.width) :
    sb.setFatEntry d i v = .ok (sb.putCopies d i v sb.fatCount) := by
  have hin' := hin
  have hbps := sb.sound.bps
  unfold InTable at hin'
  unfold setFatEntry
  cases ht : sb.type <;> rw [ht] at hin' hv <;>
    simp only [FatType.entryOffset, FatType.bytes, FatType.width] at hin' hv ⊢
  · rw [fat12Set, if_neg (by omega), hbps, if_neg (by omega)]
    obtain ⟨b, hb, rfl⟩ := loopFrom_ok (fat12SetCopy sb i v)
      (fun k b => b = sb.putCopies d i v k) sb.fatCount 0 d rfl (fun k b _ hk hbk =>
        ⟨_, fat12SetCopy_ok ht (by omega) hin (by omega), by rw [hbk, putCopies]⟩)
    rw [hb, Nat.zero_add]
  · rw [fat16Set, if_neg (by omega), hbps, if_neg (by omega)]
    obtain ⟨b, hb, rfl⟩ := loopFrom_ok (fat16SetCopy sb i v)
      (fun k b => b = sb.putCopies d i v k) sb.fatCount 0 d rfl (fun k b _ hk hbk =>
        ⟨_, fat16SetCopy_ok ht (by omega) hin, by rw [hbk, putCopies]⟩)
    rw [hb, Nat.zero_add]
  · have hcc := sb.clusterCount_lt
    rw [fat32Set, if_neg (by omega), hbps, u32_of_lt (n := i * 4) (by omega),
      u32_of_lt (n := i * 4 + 3) (by omega), if_neg (by omega)]
    obtain ⟨b, hb, hI, -⟩ := loopFrom_ok (fat32SetCopy sb i)
      (fun k b => b.1 = sb.putCopies d i v k ∧ b.2 % 2 ^ 28 = v) sb.fatCount 0 (d, v)
      ⟨rfl, Nat.mod_eq_of_lt hv⟩ (fun k b _ hk hbk => by
        obtain ⟨w', hw', hv'⟩ :=
          fat32SetCopy_ok (d := b.1) ht (by omega : k < sb.fatCount) hi hin hbk.2
        exact ⟨_, hw', by rw [hbk.1, putCopies], hv'⟩)
    rw [hb, Nat.zero_add] at *
    simp only [Except.map, hI]

theorem setFatEntry_error (hin : ¬ sb.InTable i)
    (hv : v < 2 ^ sb.type.width) : sb.setFatEntry d i v = .error .ioError := by
  have hbps := sb.sound.bps
  unfold InTable at hin
  unfold setFatEntry
  cases ht : sb.type <;> rw [ht] at hin hv <;>
    simp only [FatType.entryOffset, FatType.bytes, FatType.width] at hin hv ⊢
  · rw [fat12Set, if_neg (by omega), hbps, if_pos (by omega)]
  · rw [fat16Set, if_neg (by omega), hbps, if_pos (by omega)]
  · have hcc := sb.clusterCount_lt
    rw [fat32Set, if_neg (by omega), hbps, u32_of_lt (n := i * 4) (by omega),
      u32_of_lt (n := i * 4 + 3) (by omega), if_pos (by omega)]

theorem entry_fits : sb.type.entryOffset i + sb.type.bytes ≤ sb.fatSectors * 512 := by
  cases ht : sb.type <;> simp only [FatType.entryOffset, FatType.bytes]
  · have := sb.sound.fat12 ht
    omega
  · have := sb.sound.fat16 ht
    omega
  · have := (sb.sound.fat32 ht).1
    omega

end

theorem fatBase_succ (sb : FatSuper) (n : Nat) :
    sb.fatBase (n + 1) = sb.fatBase n + sb.fatSectors * 512 := by
  simp only [fatBase]
  ring

theorem fatBase_mono (sb : FatSuper) {m : Nat} (h : m ≤ n) : sb.fatBase m ≤ sb.fatBase n := by
  induction h with
  | refl => exact le_rfl
  | step _ ih => exact ih.trans (by rw [fatBase_succ]; omega)

theorem putCopies_outside (hi : i < sb.clusterCount + 2) {a : Nat}
    (ha : a < sb.fatBase 0 ∨ sb.fatBase n ≤ a) : sb.putCopies d i v n a = d a := by
  induction n with
  | zero => rfl
  | succ n ih =>
    have hfit := entry_fits hi
    have hb := fatBase_succ sb n
    have h0 := sb.fatBase_mono (Nat.zero_le n)
    rw [putCopies, FatType.putEntry_outside (by omega), ih (by omega)]

theorem putCopies_copy (hi : i < sb.clusterCount + 2) (hc : copy < n) {k : Nat}
    (hk : k < sb.fatSectors * 512) :
    sb.putCopies d i v n (sb.fatBase copy + k) =
      sb.type.putEntry d (sb.fatBase copy) i v (sb.fatBase copy + k) := by
  induction n with
  | zero => omega
  | succ n ih =>
    rw [putCopies]
    by_cases hcn : copy = n
    · subst hcn
      apply FatType.putEntry_congr
      · intro m hm
        exact putCopies_outside hi (by omega)
      · exact putCopies_outside hi (by omega)
    · have hb := fatBase_succ sb copy
      have hle := sb.fatBase_mono (show copy + 1 ≤ n by omega)
      rw [FatType.putEntry_outside (by omega), ih (by omega)]

def CopiesEqual (sb : FatSuper) (d : Disk) : Prop :=
  ∀ c < sb.fatCount, ∀ k < sb.fatSectors * 512, d (sb.fatBase c + k) = d (sb.fatBase 0 + k)

/-- `d'` is `d` with table entry `i` set to `v`. -/
structure FatUpdate (sb : FatSuper) (d d' : Disk) (i v : Nat) : Prop where
  entry : ∀ c < sb.fatCount, ∀ j < sb.clusterCount + 2,
    sb.fatEntry d' c j = if j = i then v else sb.fatEntry d c j
  copies : sb.CopiesEqual d → sb.CopiesEqual d'
  reserved : sb.type = .fat32 → ∀ c < sb.fatCount, ∀ j < sb.clusterCount + 2,
    (d' (sb.fatBase c + j * 4 + 3)).toNat / 16 = (d (sb.fatBase c + j * 4 + 3)).toNat / 16
  outside : ∀ a, a < sb.fatStart * 512 ∨ sb.rootDirStart * 512 ≤ a → d' a = d a

theorem fatBase_fatCount (sb : FatSuper) : sb.fatBase sb.fatCount = sb.rootDirStart * 512 := by
  rw [fatBase, sb.sound.rootDirStart]

theorem putCopies_update (hi : i < sb.clusterCount + 2) (hv : v < 2 ^ sb.type.width) :
    sb.FatUpdate d (sb.putCopies d i v sb.fatCount) i v where
  entry c hc j hj := by
    have hfit := entry_fits hj
    have he : sb.fatEntry (sb.putCopies d i v sb.fatCount) c j =
        sb.type.entryAt (sb.type.putEntry d (sb.fatBase c) i v) (sb.fatBase c) j := by
      apply FatType.entryAt_congr
      intro k hk
      rw [Nat.add_assoc]
      exact putCopies_copy hi hc (by omega)
    rw [he]
    split_ifs with hji
    · rw [hji, FatType.entryAt_putEntry hv]
    · rw [FatType.entryAt_putEntry_ne hv hji, fatEntry]
  copies hcop c hc k hk := by
    rw [putCopies_copy hi hc hk, putCopies_copy hi sb.fatCount_pos hk]
    exact FatType.putEntry_translate (entry_fits hi) (hcop c hc) hk
  reserved ht c hc j hj := by
    have hfit := entry_fits hj
    simp only [ht, FatType.entryOffset, FatType.bytes] at hfit
    rw [ht] at hv
    rw [Nat.add_assoc, putCopies_copy hi hc (by omega), ht, ← Nat.add_assoc]
    exact FatType.putEntry_fat32_reserved hv
  outside a ha := by
    apply putCopies_outside hi
    rwa [fatBase_zero, fatBase_fatCount]

theorem getFatEntry_congr (h : ∀ a < sb.rootDirStart * 512, d' a = d a) (j : Nat) :
    sb.getFatEntry d' j = sb.getFatEntry d j := by
  by_cases hj : j < sb.clusterCount + 2
  · by_cases hin : sb.InTable j
    · rw [getFatEntry_ok hj hin, getFatEntry_ok hj hin]
      refine congrArg Except.ok (FatType.entryAt_congr fun k hk => h _ ?_)
      have hfit := entry_fits hj
      have hend := sb.fatBase_mono (show 0 + 1 ≤ sb.fatCount from sb.fatCount_pos)
      rw [fatBase_succ, fatBase_fatCount] at hend
      omega
    · rw [getFatEntry_of_tests hj hin, getFatEntry_of_tests hj hin]
  · rw [getFatEntry_range (by omega), getFatEntry_range (by omega)]

theorem CopiesEqual.congr (hd : sb.CopiesEqual d)
    (h : ∀ a < sb.rootDirStart * 512, d' a = d a) : sb.CopiesEqual d' := by
  intro c hc k hk
  have hend := sb.fatBase_mono (show c + 1 ≤ sb.fatCount from hc)
  have h0 := sb.fatBase_mono (Nat.zero_le c)
  rw [fatBase_succ, fatBase_fatCount] at hend
  rw [h _ (by omega), h _ (by omega)]
  exact hd c hc k hk

theorem setFatEntry_cases (hi : i < sb.clusterCount + 2) (hv : v < 2 ^ sb.type.width) :
    (sb.InTable i ∧ ∃ d', sb.setFatEntry d i v = .ok d' ∧ sb.FatUpdate d d' i v) ∨
      (¬ sb.InTable i ∧ sb.setFatEntry d i v = .error .ioError) := by
  by_cases hin : sb.InTable i
  · exact .inl ⟨hin, _, setFatEntry_ok hi hin hv, putCopies_update hi hv⟩
  · exact .inr ⟨hin, setFatEntry_error hi hin hv⟩

theorem FatUpdate.getFatEntry (h : sb.FatUpdate d d' i v) (hj : j < sb.clusterCount + 2) :
    sb.getFatEntry d' j = if j = i ∧ sb.InTable j then .ok v else sb.getFatEntry d j := by
  by_cases hin : sb.InTable j
  · rw [getFatEntry_ok hj hin, getFatEntry_ok hj hin, h.entry 0 sb.fatCount_pos j hj]
    by_cases hji : j = i
    · rw [if_pos hji, if_pos ⟨hji, hin⟩]
    · rw [if_neg hji, if_neg (fun hc => hji hc.1)]
  · rw [if_neg (fun hc => hin hc.2), getFatEntry_of_tests hj hin, getFatEntry_of_tests hj hin]

/-- The table's byte size, as the entry functions compute it, covers every entry. -/
def TableInRange (sb : FatSuper) : Prop :=
  sb.type = .fat32 → 4 * (sb.clusterCount + 2) ≤ u32 (sb.fatSectors * 512)

theorem tableInRange_iff (sb : FatSuper) :
    sb.TableInRange ↔ ∀ i < sb.clusterCount + 2, sb.InTable i := by
  constructor
  · intro h i hi
    have hfit := entry_fits hi
    unfold InTable
    cases ht : sb.type <;> simp only [ht, FatType.entryOffset, FatType.bytes] at hfit ⊢
    · have hn := sb.sound.narrow (by rw [ht]; decide)
      rw [u32_of_lt (by omega)]
      omega
    · have hn := sb.sound.narrow (by rw [ht]; decide)
      rw [u32_of_lt (by omega)]
      omega
    · have := h ht
      omega
  · intro h ht
    have hin := h (sb.clusterCount + 1) (by omega)
    simp only [InTable, ht, FatType.entryOffset, FatType.bytes] at hin
    omega

/-- The read-over-write law of the entry functions: `set_fat_entry(i, v)` succeeds, a later
`get_fat_entry(j)` returns `v` or what it returned before, and `FatUpdate` holds. -/
def SetGetLaw (sb : FatSuper) : Prop :=
  ∀ d i v, i < sb.clusterCount + 2 → v < 2 ^ sb.type.width →
    ∃ d', sb.setFatEntry d i v = .ok d' ∧ sb.FatUpdate d d' i v ∧
      ∀ j < sb.clusterCount + 2, ∃ w, sb.getFatEntry d j = .ok w ∧
        sb.getFatEntry d' j = .ok (if j = i then v else w)

theorem setGetLaw_iff (sb : FatSuper) : sb.SetGetLaw ↔ sb.TableInRange := by
  rw [tableInRange_iff]
  constructor
  · intro h i hi
    obtain ⟨d', hset, -⟩ := h (fun _ => 0) i 0 hi (Nat.two_pow_pos _)
    by_contra hin
    rw [setFatEntry_error hi hin (Nat.two_pow_pos _)] at hset
    cases hset
  · intro h d i v hi hv
    refine ⟨_, setFatEntry_ok hi (h i hi) hv, putCopies_update hi hv, fun j hj => ?_⟩
    refine ⟨_, getFatEntry_ok hj (h j hj), ?_⟩
    rw [(putCopies_update hi hv).getFatEntry hj, getFatEntry_ok hj (h j hj)]
    by_cases hji : j = i
    · rw [if_pos ⟨hji, h j hj⟩, if_pos hji]
    · rw [if_neg (fun hc => hji hc.1), if_neg hji]

end FatSuper

theorem fatProbeType_of_layout (bd : BlockDev) {bpb : FatBpb} {total : Nat} {l : FatLayout}
    (h : fatProbeLayout bd.sectorSize bd.sectorCount bpb total = .ok l) :
    ∃ sb : FatSuper, fatProbeType bd bpb total = .ok sb ∧ sb.toFatLayout = l := by
  refine ⟨⟨l, fatProbeLayout_sound bd.lba28 h⟩, ?_, rfl⟩
  unfold fatProbeType
  split
  · next e he => rw [h] at he; cases he
  · next l' he =>
    rw [h] at he
    cases he
    rfl

/-- On every accepted superblock the entry functions obey the read-over-write law exactly when
the 32-bit table size reaches past the last entry. -/
theorem probed_setGetLaw_iff (bd : BlockDev) (bpb : FatBpb) (total : Nat) (sb : FatSuper)
    (_h : fatProbeType bd bpb total = .ok sb) :
    sb.SetGetLaw ↔
      (sb.type = .fat32 → 4 * (sb.clusterCount + 2) ≤ sb.fatSectors * 512 % 2 ^ 32) :=
  sb.setGetLaw_iff

/-- A floppy-sized volume: one sector of FAT, one of root directory, nine clusters. -/
def smallBpb : FatBpb where
  bytesPerSector := 512
  sectorsPerCluster := 1
  reservedSectors := 1
  fatCount := 2
  rootEntries := 16
  totalSectors16 := 13
  totalSectors32 := 0
  sectorsPerFat16 := 1
  sectorsPerFat32 := 0
  rootCluster := 0

def smallDev : BlockDev := ⟨512, 13, by decide⟩

theorem smallBpb_layout : fatProbeLayout 512 13 smallBpb 13 = .ok
    { type := .fat12, bytesPerSector := 512, sectorsPerCluster := 1, fatCount := 2,
      rootEntries := 16, fatStart := 1, rootDirStart := 3, dataStart := 4, rootCluster := 0,
      volumeSectors := 13, fatSectors := 1, rootDirSectors := 1, clusterCount := 9,
      sectorCount := 13 } := by rfl

theorem smallBpb_setGetLaw : ∃ sb, fatProbeType smallDev smallBpb 13 = .ok sb ∧ sb.SetGetLaw := by
  obtain ⟨sb, hsb, hl⟩ := fatProbeType_of_layout smallDev smallBpb_layout
  refine ⟨sb, hsb, (probed_setGetLaw_iff smallDev smallBpb 13 sb hsb).mpr fun ht => ?_⟩
  rw [hl] at ht
  cases ht

/-- A FAT32 volume of eight gigabytes whose table takes four: `2 ^ 23` sectors. -/
def wideBpb : FatBpb where
  bytesPerSector := 512
  sectorsPerCluster := 1
  reservedSectors := 32
  fatCount := 1
  rootEntries := 0
  totalSectors16 := 0
  totalSectors32 := 0x1000000
  sectorsPerFat16 := 0
  sectorsPerFat32 := 0x800000
  rootCluster := 2

def wideDev : BlockDev := ⟨512, 0x1000000, by decide⟩

theorem wideBpb_layout : fatProbeLayout 512 0x1000000 wideBpb 0x1000000 = .ok
    { type := .fat32, bytesPerSector := 512, sectorsPerCluster := 1, fatCount := 1,
      rootEntries := 0, fatStart := 32, rootDirStart := 0x800020, dataStart := 0x800020,
      rootCluster := 2, volumeSectors := 0x1000000, fatSectors := 0x800000, rootDirSectors := 0,
      clusterCount := 0x7fffe0, sectorCount := 0x1000000 } := by rfl

/-- The size of the accepted four-gigabyte table wraps to zero: no entry can be set or read. -/
theorem wideBpb_not_setGetLaw :
    ∃ sb, fatProbeType wideDev wideBpb 0x1000000 = .ok sb ∧ ¬ sb.SetGetLaw ∧
      ∀ d, sb.setFatEntry d 2 0 = .error .ioError ∧ sb.getFatEntry d 2 = .error .ioError := by
  obtain ⟨sb, hsb, hl⟩ := fatProbeType_of_layout wideDev wideBpb_layout
  have hcc : sb.clusterCount = 0x7fffe0 := by rw [hl]
  have hin : ¬ sb.InTable 2 := by
    unfold FatSuper.InTable
    rw [hl]
    decide
  have hv : 0 < 2 ^ sb.type.width := Nat.two_pow_pos _
  refine ⟨sb, hsb, fun h => ?_, fun d => ⟨FatSuper.setFatEntry_error (by omega) hin hv,
    FatSuper.getFatEntry_of_tests (by omega) hin⟩⟩
  exact hin ((sb.tableInRange_iff.mp (sb.setGetLaw_iff.mp h)) 2 (by omega))

end CfKernel.Fat
