import CfKernel.Fat.Table

/-!
# What the table operations do

`getFatEntry` reads the entry off the first copy and `setFatEntry` puts it into every copy, as
long as the word lies inside the table as the code computes its size: in 32 bits.
-/

namespace CfKernel.Fat

open Lib Function

namespace FatSuper

variable (sb : FatSuper)

/-- First byte of a FAT copy. -/
def fatBase (copy : Nat) : Nat := (sb.fatStart + copy * sb.fatSectors) * 512

def fatEntry (d : Disk) (copy i : Nat) : Nat := sb.type.entryAt d (sb.fatBase copy) i

def InTable (i : Nat) : Prop :=
  sb.type.entryOffset i + (sb.type.bytes - 1) < u32 (sb.fatSectors * 512)

instance (i : Nat) : Decidable (sb.InTable i) := inferInstanceAs (Decidable (_ < _))

variable {sb} {i j v copy : Nat} {d : Disk}

theorem InTable.lt (h : sb.InTable i) :
    sb.type.entryOffset i + sb.type.bytes ≤ sb.fatSectors * 512 := by
  have hle : u32 (sb.fatSectors * 512) ≤ sb.fatSectors * 512 := Nat.mod_le _ _
  unfold InTable at h
  cases ht : sb.type <;> rw [ht] at h <;> simp only [FatType.bytes] at h ⊢ <;> omega

theorem copyEnd_le (hc : copy < sb.fatCount) :
    sb.fatStart + copy * sb.fatSectors + sb.fatSectors ≤ sb.fatStart + sb.fatCount * sb.fatSectors := by
  have h : (copy + 1) * sb.fatSectors ≤ sb.fatCount * sb.fatSectors := Nat.mul_le_mul_right _ hc
  rw [Nat.add_mul, Nat.one_mul] at h
  omega

theorem fatSector_le (hc : copy < sb.fatCount) {s : Nat} (hs : s < sb.fatSectors) :
    sb.fatStart + copy * sb.fatSectors + s + 1 ≤ sb.sectorCount := by
  have h1 := copyEnd_le hc
  have h2 := sb.fatArea_le
  have h3 := sb.dataStart_le
  omega

theorem fatCount_pos (sb : FatSuper) : 0 < sb.fatCount := by
  rcases sb.sound.fatCount with h | h <;> omega

theorem fatBase_zero (sb : FatSuper) : sb.fatBase 0 = sb.fatStart * 512 := by
  simp [fatBase]

theorem sector_window (sb : FatSuper) (d : Disk) (copy o k : Nat) :
    window d ((sb.fatStart + copy * sb.fatSectors + o / 512) * 512) (o % 512 + k) =
      d (sb.fatBase copy + o + k) := by
  rw [window_apply, fatBase]
  exact congrArg d (by omega)

theorem sector_byte (sb : FatSuper) (copy o : Nat) :
    (sb.fatStart + copy * sb.fatSectors + o / 512) * 512 + o % 512 = sb.fatBase copy + o := by
  rw [fatBase]
  omega

theorem and_one_ne_zero_iff (n : Nat) : n &&& 1 ≠ 0 ↔ n % 2 = 1 := by
  rw [Nat.and_one_is_mod]
  omega

theorem fat12Bits_eq (i : Nat) (b : Bytes) (o : Nat) :
    fat12Bits i (b o) (b (o + 1)) = if i % 2 = 1 then le16 b o / 16 else le16 b o % 4096 := by
  have hmask : le16 b o &&& 0x0FFF = le16 b o % 2 ^ 12 := Nat.and_two_pow_sub_one_eq_mod _ 12
  simp only [fat12Bits, and_one_ne_zero_iff]
  rw [← le16, hmask, Nat.shiftRight_eq_div_pow]
  norm_num

theorem getFatEntry_of_tests (hi : i < sb.clusterCount + 2) (hin : ¬ sb.InTable i) :
    sb.getFatEntry d i = .error .ioError := by
  unfold InTable at hin
  unfold getFatEntry
  cases ht : sb.type <;> rw [ht] at hin <;> simp only [FatType.entryOffset, FatType.bytes] at hin ⊢
  · rw [fat12Get, if_neg (by omega), if_pos (by rw [sb.sound.bps]; omega)]
  · rw [fat16Get, if_neg (by omega), if_pos (by rw [sb.sound.bps]; omega)]
  · have hcc := sb.clusterCount_lt
    rw [fat32Get, if_neg (by omega), if_pos]
    rw [sb.sound.bps, u32_of_lt (n := i * 4) (by omega), u32_of_lt (n := i * 4 + 3) (by omega)]
    omega

theorem fat12Get_ok (ht : sb.type = .fat12) (hi : i < sb.clusterCount + 2) (hin : sb.InTable i) :
    fat12Get sb d i = .ok (sb.fatEntry d 0 i) := by
  have hlt := hin.lt
  simp only [InTable, ht, FatType.entryOffset, FatType.bytes] at hin hlt
  have hs := fatSector_le sb.fatCount_pos (s := (i + i / 2) / 512) (by omega)
  have h0 := sb.sector_window d 0 (i + i / 2) 0
  have h1 := sb.sector_window d 0 (i + i / 2) 1
  simp only [Nat.zero_mul, Nat.add_zero] at hs h0 h1
  rw [fat12Get, if_neg (by omega), if_neg (by rw [sb.sound.bps]; omega)]
  simp only [sb.sound.bps, sb.readSectors_ok d hs, bind, Except.bind]
  rw [fatEntry, ht, FatType.entryAt, ← fat12Bits_eq, h0]
  split_ifs with ho
  · rw [h1]
    rfl
  · have hs' : sb.fatStart + (i + i / 2) / 512 + 1 + 1 ≤ sb.sectorCount := by
      have h := fatSector_le sb.fatCount_pos (s := (i + i / 2) / 512 + 1) (by omega)
      rw [Nat.zero_mul] at h
      omega
    have he : (sb.fatStart + (i + i / 2) / 512 + 1) * 512 + 0 = sb.fatBase 0 + (i + i / 2) + 1 := by
      rw [fatBase_zero]
      omega
    simp only [sb.readSectors_ok d hs', window_apply, he]
    rfl

theorem fat16Get_ok (ht : sb.type = .fat16) (hi : i < sb.clusterCount + 2) (hin : sb.InTable i) :
    fat16Get sb d i = .ok (sb.fatEntry d 0 i) := by
  have hlt := hin.lt
  simp only [InTable, ht, FatType.entryOffset, FatType.bytes] at hin hlt
  have hs := fatSector_le sb.fatCount_pos (s := i * 2 / 512) (by omega)
  have h0 := sb.sector_window d 0 (i * 2) 0
  have h1 := sb.sector_window d 0 (i * 2) 1
  simp only [Nat.zero_mul, Nat.add_zero] at hs h0 h1
  rw [fat16Get, if_neg (by omega), if_neg (by rw [sb.sound.bps]; omega)]
  simp only [sb.sound.bps, sb.readSectors_ok d hs, bind, Except.bind, pure, Except.pure, le16, h0,
    h1, fatEntry, ht, FatType.entryAt]

theorem fat32Get_ok (ht : sb.type = .fat32) (hi : i < sb.clusterCount + 2) (hin : sb.InTable i) :
    fat32Get sb d i = .ok (sb.fatEntry d 0 i) := by
  have hlt := hin.lt
  have hcc := sb.clusterCount_lt
  simp only [InTable, ht, FatType.entryOffset, FatType.bytes] at hin hlt
  have hs := fatSector_le sb.fatCount_pos (s := i * 4 / 512) (by omega)
  have hw := sb.sector_window d 0 (i * 4)
  have hmask : ∀ n, n &&& 0x0FFFFFFF = n % 2 ^ 28 := fun n => Nat.and_two_pow_sub_one_eq_mod n 28
  have h0 := hw 0
  simp only [Nat.zero_mul, Nat.add_zero] at hs hw h0
  rw [fat32Get, if_neg (by omega), u32_of_lt (n := i * 4) (by omega)]
  dsimp only
  rw [u32_of_lt (n := i * 4 + 3) (by omega), if_neg (by rw [sb.sound.bps]; omega)]
  simp only [sb.sound.bps, sb.readSectors_ok d hs, bind, Except.bind, pure, Except.pure, le32, h0,
    hw, fatEntry, ht, FatType.entryAt, hmask]

theorem getFatEntry_ok (hi : i < sb.clusterCount + 2) (hin : sb.InTable i) :
    sb.getFatEntry d i = .ok (sb.fatEntry d 0 i) := by
  unfold getFatEntry
  cases ht : sb.type
  · exact fat12Get_ok ht hi hin
  · exact fat16Get_ok ht hi hin
  · exact fat32Get_ok ht hi hin

theorem getFatEntry_range (hi : sb.clusterCount + 2 ≤ i) :
    sb.getFatEntry d i = .error .invalidArgument := by
  unfold getFatEntry
  cases sb.type
  · exact if_pos hi
  · exact if_pos hi
  · exact if_pos hi

theorem fat12Merge_eq (b : Bytes) (o : Nat) (hv : v < 4096) :
    fat12Merge i v (b o) (b (o + 1)) =
      if i % 2 = 1 then le16 b o % 16 + v * 16 else le16 b o / 4096 * 4096 + v := by
  have hlow : le16 b o &&& 0x000F = le16 b o % 2 ^ 4 := Nat.and_two_pow_sub_one_eq_mod _ 4
  have hv' : v &&& 0x0FFF = v := by
    rw [show (0x0FFF : Nat) = 2 ^ 12 - 1 from rfl, Nat.and_two_pow_sub_one_eq_mod]
    exact Nat.mod_eq_of_lt hv
  have hhigh : le16 b o &&& 0xF000 = le16 b o / 2 ^ 12 * 2 ^ 12 :=
    and_highMask (k := 12) (m := 4) (le16_lt b o)
  simp only [fat12Merge, and_one_ne_zero_iff]
  rw [← le16, hlow, hv', hhigh]
  congr 1
  · exact or_shiftLeft_eq_add (k := 4) (by omega) v
  · rw [Nat.or_comm, ← Nat.shiftLeft_eq, or_shiftLeft_eq_add (k := 12) hv, Nat.add_comm]
    norm_num

theorem fat16SetCopy_ok (ht : sb.type = .fat16) (hc : copy < sb.fatCount) (hin : sb.InTable i) :
    fat16SetCopy sb i v copy d = .ok (sb.type.putEntry d (sb.fatBase copy) i v) := by
  have hlt := hin.lt
  simp only [ht, FatType.entryOffset, FatType.bytes] at hlt
  have hs := fatSector_le hc (s := i * 2 / 512) (by omega)
  simp only [fat16SetCopy, sb.sound.bps, sb.readSectors_ok d hs, sb.writeSectors_ok d _ hs, bind,
    Except.bind, putLe16, ht, FatType.putEntry]
  rw [splice_window_splice _ _ (by omega), sector_byte]

theorem fat32SetCopy_ok (ht : sb.type = .fat32) (hc : copy < sb.fatCount)
    (hi : i < sb.clusterCount + 2) (hin : sb.InTable i) {w : Nat} (hw : w % 2 ^ 28 = v) :
    ∃ w', fat32SetCopy sb i copy (d, w) = .ok (sb.type.putEntry d (sb.fatBase copy) i v, w') ∧
      w' % 2 ^ 28 = v := by
  have hlt := hin.lt
  have hcc := sb.clusterCount_lt
  simp only [ht, FatType.entryOffset, FatType.bytes] at hlt
  have hs := fatSector_le hc (s := i * 4 / 512) (by omega)
  have h3 := sb.sector_window d copy (i * 4) 3
  have hmask : w &&& 0x0FFFFFFF = w % 2 ^ 28 := Nat.and_two_pow_sub_one_eq_mod w 28
  have hb := (d (sb.fatBase copy + i * 4 + 3)).toNat_lt
  have htop : (d (sb.fatBase copy + i * 4 + 3)).toNat &&& 0xF0 =
      (d (sb.fatBase copy + i * 4 + 3)).toNat / 2 ^ 4 * 2 ^ 4 := and_highMask (k := 4) (m := 4) hb
  have hval : (w &&& 0x0FFFFFFF) ||| (((d (sb.fatBase copy + i * 4 + 3)).toNat &&& 0xF0) <<< 24) =
      (d (sb.fatBase copy + i * 4 + 3)).toNat / 16 * 2 ^ 28 + v := by
    rw [hmask, htop, ← Nat.shiftLeft_eq, ← Nat.shiftLeft_add,
      or_shiftLeft_eq_add (k := 4 + 24) (by omega), hw, Nat.add_comm]
    norm_num
  refine ⟨(d (sb.fatBase copy + i * 4 + 3)).toNat / 16 * 2 ^ 28 + v, ?_, by omega⟩
  simp only [fat32SetCopy, sb.sound.bps, u32_of_lt (n := i * 4) (by omega), sb.readSectors_ok d hs,
    sb.writeSectors_ok d _ hs, bind, Except.bind, pure, Except.pure, h3, hval, putLe32, ht,
    FatType.putEntry]
  rw [splice_window_splice _ _ (by omega), sector_byte]

theorem fat12SetCopy_ok (ht : sb.type = .fat12) (hc : copy < sb.fatCount) (hin : sb.InTable i)
    (hv : v < 4096) :
    fat12SetCopy sb i v copy d = .ok (sb.type.putEntry d (sb.fatBase copy) i v) := by
  have hlt := hin.lt
  simp only [ht, FatType.entryOffset, FatType.bytes] at hlt
  have hs := fatSector_le hc (s := (i + i / 2) / 512) (by omega)
  have hp := sb.sector_byte copy (i + i / 2)
  have h0 := sb.sector_window d copy (i + i / 2) 0
  have h1 := sb.sector_window d copy (i + i / 2) 1
  rw [Nat.add_zero, Nat.add_zero] at h0
  simp only [fat12SetCopy, sb.sound.bps, ht, FatType.putEntry, ← fat12Merge_eq d _ hv]
  set o := i + i / 2
  set lba := sb.fatStart + copy * sb.fatSectors + o / 512
  set e := fat12Merge i v (d (sb.fatBase copy + o)) (d (sb.fatBase copy + o + 1))
  by_cases ho : o % 512 + 1 < 512
  · -- both bytes in one sector
    have hne : o % 512 ≠ 512 - 1 := by omega
    simp only [sb.readSectors_ok d hs, sb.writeSectors_ok d _ hs, bind, Except.bind, pure,
      Except.pure, if_pos ho, if_neg hne]
    rw [h0, h1, ← putLe16_eq_update, putLe16, splice_window_splice _ _ (by omega), hp, putLe16]
  · -- the second byte opens the next sector
    have heq : o % 512 = 512 - 1 := by omega
    have hs' : lba + 1 + 1 ≤ sb.sectorCount := by
      have h := fatSector_le hc (s := o / 512 + 1) (by omega)
      omega
    have hq : (lba + 1) * 512 = sb.fatBase copy + o + 1 := by omega
    have h2 : window d ((lba + 1) * 512) 0 = d (sb.fatBase copy + o + 1) := by
      rw [window_apply, Nat.add_zero, hq]
    have hwin : window d ((lba + 1) * 512) =
        window (update d (sb.fatBase copy + o) (byteOf e 0)) ((lba + 1) * 512) :=
      funext fun k => by rw [window_apply, window_apply, update_of_ne (by omega)]
    simp only [sb.readSectors_ok d hs, sb.readSectors_ok d hs', sb.writeSectors_ok _ _ hs,
      sb.writeSectors_ok _ _ hs', bind, Except.bind, if_neg ho, if_pos heq]
    rw [h0, h2, splice_window_update _ _ (by omega), hp, hwin, splice_window_update _ _ (by omega),
      hq, Nat.add_zero, putLe16_eq_update]

end FatSuper

end CfKernel.Fat
