import CfKernel.Fat.Super
import CfKernel.Lib.Effect

/-!
# The file allocation table

`get_fat_entry` and `set_fat_entry` of the three variants. An entry is a little-endian word of two
or four bytes at `entryOffset`; FAT12 packs two entries into three bytes, so a word also carries
four bits of a neighbour, and FAT32 keeps the top four bits of the word.
-/

namespace CfKernel.Fat

open Lib Function

namespace FatSuper

variable (sb : FatSuper)

def readSectors (d : Disk) (lba count : Nat) : Except Errno Bytes :=
  blockdevRead sb.bytesPerSector sb.sectorCount d lba count

def writeSectors (d : Disk) (lba count : Nat) (buf : Bytes) : Except Errno Disk :=
  blockdevWrite sb.bytesPerSector sb.sectorCount d lba count buf

theorem readSectors_ok (d : Disk) {lba count : Nat} (h : lba + count ≤ sb.sectorCount) :
    sb.readSectors d lba count = .ok (window d (lba * 512)) := by
  rw [readSectors, blockdevRead, if_neg (by omega), sb.sound.bps]

theorem writeSectors_ok (d : Disk) (buf : Bytes) {lba count : Nat}
    (h : lba + count ≤ sb.sectorCount) :
    sb.writeSectors d lba count buf = .ok (splice d (lba * 512) (count * 512) buf) := by
  rw [writeSectors, blockdevWrite, if_neg (by omega), sb.sound.bps]

end FatSuper

/-- The entry in a FAT12 word, of which it takes the upper or the lower twelve bits. -/
def fat12Bits (index : Nat) (low high : UInt8) : Nat :=
  let entry := low.toNat ||| (high.toNat <<< 8)
  if index &&& 1 ≠ 0 then entry >>> 4 else entry &&& 0x0FFF

/-- The FAT12 word with its entry replaced. -/
def fat12Merge (index value : Nat) (low high : UInt8) : Nat :=
  let entry := low.toNat ||| (high.toNat <<< 8)
  if index &&& 1 ≠ 0 then (entry &&& 0x000F) ||| ((value &&& 0x0FFF) <<< 4)
  else (entry &&& 0xF000) ||| (value &&& 0x0FFF)

def fat12Get (sb : FatSuper) (d : Disk) (index : Nat) : Except Errno Nat :=
  if sb.clusterCount + 2 ≤ index then .error .invalidArgument
  else
    let fatOffset := index + index / 2
    if u32 (sb.fatSectors * sb.bytesPerSector) ≤ fatOffset + 1 then .error .ioError
    else do
      let sector := sb.fatStart + fatOffset / sb.bytesPerSector
      let offset := fatOffset % sb.bytesPerSector
      let buf ← sb.readSectors d sector 1
      if offset + 1 < sb.bytesPerSector then pure (fat12Bits index (buf offset) (buf (offset + 1)))
      else do
        let buf' ← sb.readSectors d (sector + 1) 1
        pure (fat12Bits index (buf offset) (buf' 0))

def fat16Get (sb : FatSuper) (d : Disk) (index : Nat) : Except Errno Nat :=
  if sb.clusterCount + 2 ≤ index then .error .invalidArgument
  else
    let fatOffset := index * 2
    if u32 (sb.fatSectors * sb.bytesPerSector) ≤ fatOffset + 1 then .error .ioError
    else do
      let buf ← sb.readSectors d (sb.fatStart + fatOffset / sb.bytesPerSector) 1
      pure (le16 buf (fatOffset % sb.bytesPerSector))

def fat32Get (sb : FatSuper) (d : Disk) (index : Nat) : Except Errno Nat :=
  if sb.clusterCount + 2 ≤ index then .error .invalidArgument
  else
    let fatOffset := u32 (index * 4)
    if u32 (sb.fatSectors * sb.bytesPerSector) ≤ u32 (fatOffset + 3) then .error .ioError
    else do
      let buf ← sb.readSectors d (sb.fatStart + fatOffset / sb.bytesPerSector) 1
      pure (le32 buf (fatOffset % sb.bytesPerSector) &&& 0x0FFFFFFF)

/-- One turn of the copy loop of `fat12_set`: an entry whose second byte opens the next sector
is read from and written to two sectors. -/
def fat12SetCopy (sb : FatSuper) (index value copy : Nat) (d : Disk) : Except Errno Disk := do
  let offset := index + index / 2
  let firstLba := sb.fatStart + copy * sb.fatSectors + offset / sb.bytesPerSector
  let inSector := offset % sb.bytesPerSector
  let s0 ← sb.readSectors d firstLba 1
  let s1 ← (if inSector = sb.bytesPerSector - 1 then sb.readSectors d (firstLba + 1) 1
    else .ok fun _ => 0)
  let high := if inSector + 1 < sb.bytesPerSector then s0 (inSector + 1) else s1 0
  let entry := fat12Merge index value (s0 inSector) high
  let t0 := update s0 inSector (byteOf entry 0)
  let d ← sb.writeSectors d firstLba 1
    (if inSector + 1 < sb.bytesPerSector then update t0 (inSector + 1) (byteOf entry 1)
      else t0)
  if inSector = sb.bytesPerSector - 1 then
    sb.writeSectors d (firstLba + 1) 1
      (if inSector + 1 < sb.bytesPerSector then s1 else update s1 0 (byteOf entry 1))
  else pure d

def fat12Set (sb : FatSuper) (d : Disk) (index value : Nat) : Except Errno Disk :=
  if sb.clusterCount + 2 ≤ index ∨ value > 0x0FFF ∨ sb.bytesPerSector ≠ 512 then
    .error .invalidArgument
  else if u32 (sb.fatSectors * sb.bytesPerSector) ≤ index + index / 2 + 1 then .error .ioError
  else loopFrom (fat12SetCopy sb index value) sb.fatCount 0 d

def fat16SetCopy (sb : FatSuper) (index value copy : Nat) (d : Disk) : Except Errno Disk := do
  let offset := index * 2
  let lba := sb.fatStart + copy * sb.fatSectors + offset / sb.bytesPerSector
  let sector ← sb.readSectors d lba 1
  sb.writeSectors d lba 1 (putLe16 sector (offset % sb.bytesPerSector) value)

def fat16Set (sb : FatSuper) (d : Disk) (index value : Nat) : Except Errno Disk :=
  if sb.clusterCount + 2 ≤ index ∨ value > 0xFFFF ∨ sb.bytesPerSector ≠ 512 then
    .error .invalidArgument
  else if u32 (sb.fatSectors * sb.bytesPerSector) ≤ index * 2 + 1 then .error .ioError
  else loopFrom (fat16SetCopy sb index value) sb.fatCount 0 d

/-- One turn of the copy loop of `fat32_set`. The source reassigns `value`, so the next copy
starts from the value that carries this copy's reserved bits. -/
def fat32SetCopy (sb : FatSuper) (index copy : Nat) (s : Disk × Nat) :
    Except Errno (Disk × Nat) := do
  let offset := u32 (index * 4)
  let lba := sb.fatStart + copy * sb.fatSectors + offset / sb.bytesPerSector
  let inSector := offset % sb.bytesPerSector
  let sector ← sb.readSectors s.1 lba 1
  let value := (s.2 &&& 0x0FFFFFFF) ||| (((sector (inSector + 3)).toNat &&& 0xF0) <<< 24)
  let d ← sb.writeSectors s.1 lba 1 (putLe32 sector inSector value)
  pure (d, value)

def fat32Set (sb : FatSuper) (d : Disk) (index value : Nat) : Except Errno Disk :=
  if sb.clusterCount + 2 ≤ index ∨ sb.bytesPerSector ≠ 512 then .error .invalidArgument
  else if u32 (sb.fatSectors * sb.bytesPerSector) ≤ u32 (u32 (index * 4) + 3) then .error .ioError
  else (loopFrom (fat32SetCopy sb index) sb.fatCount 0 (d, value)).map Prod.fst

namespace FatSuper

variable (sb : FatSuper)

def getFatEntry (d : Disk) (index : Nat) : Except Errno Nat :=
  match sb.type with
  | .fat12 => fat12Get sb d index
  | .fat16 => fat16Get sb d index
  | .fat32 => fat32Get sb d index

def setFatEntry (d : Disk) (index value : Nat) : Except Errno Disk :=
  match sb.type with
  | .fat12 => fat12Set sb d index value
  | .fat16 => fat16Set sb d index value
  | .fat32 => fat32Set sb d index value

end FatSuper

def isEoc : FatType → Nat → Bool
  | .fat12, value => 0x0FF8 ≤ value
  | .fat16, value => 0xFFF8 ≤ value
  | .fat32, value => 0x0FFFFFF8 ≤ value &&& 0x0FFFFFFF

def FatType.width : FatType → Nat
  | .fat12 => 12
  | .fat16 => 16
  | .fat32 => 28

def FatType.bytes : FatType → Nat
  | .fat32 => 4
  | _ => 2

def FatType.entryOffset : FatType → Nat → Nat
  | .fat12, i => i + i / 2
  | .fat16, i => i * 2
  | .fat32, i => i * 4

def FatType.entryAt (t : FatType) (d : Disk) (base i : Nat) : Nat :=
  match t with
  | .fat12 => if i % 2 = 1 then le16 d (base + (i + i / 2)) / 16
      else le16 d (base + (i + i / 2)) % 4096
  | .fat16 => le16 d (base + i * 2)
  | .fat32 => le32 d (base + i * 4) % 2 ^ 28

def FatType.putEntry (t : FatType) (d : Disk) (base i v : Nat) : Disk :=
  match t with
  | .fat12 => putLe16 d (base + (i + i / 2))
      (if i % 2 = 1 then le16 d (base + (i + i / 2)) % 16 + v * 16
        else le16 d (base + (i + i / 2)) / 4096 * 4096 + v)
  | .fat16 => putLe16 d (base + i * 2) v
  | .fat32 => putLe32 d (base + i * 4)
      ((d (base + i * 4 + 3)).toNat / 16 * 2 ^ 28 + v)

namespace FatType

variable {t : FatType} {d : Disk} {base i j v : Nat}

theorem putEntry_outside {a : Nat}
    (h : a < base + t.entryOffset i ∨ base + t.entryOffset i + t.bytes ≤ a) :
    t.putEntry d base i v a = d a := by
  cases t
  · exact putLe16_outside h
  · exact putLe16_outside h
  · exact putLe32_outside h

theorem putEntry_congr {d' : Disk} {a : Nat}
    (h : ∀ k < t.bytes, d' (base + t.entryOffset i + k) = d (base + t.entryOffset i + k))
    (ha : d' a = d a) : t.putEntry d' base i v a = t.putEntry d base i v a := by
  by_cases hin : a < base + t.entryOffset i ∨ base + t.entryOffset i + t.bytes ≤ a
  · rw [putEntry_outside hin, putEntry_outside hin, ha]
  · obtain ⟨k, hk, rfl⟩ : ∃ k < t.bytes, a = base + t.entryOffset i + k :=
      ⟨a - (base + t.entryOffset i), by omega, by omega⟩
    cases t
    · have hw : le16 d' (base + (i + i / 2)) = le16 d (base + (i + i / 2)) := le16_congr h
      simp only [putEntry, entryOffset, hw, putLe16_apply _ _ _ k hk]
    · simp only [putEntry, entryOffset, putLe16_apply _ _ _ k hk]
    · have h3 : d' (base + i * 4 + 3) = d (base + i * 4 + 3) := h 3 (by decide)
      simp only [putEntry, entryOffset, h3, putLe32_apply _ _ _ k hk]

theorem putEntry_translate {base' size k : Nat} (hfit : t.entryOffset i + t.bytes ≤ size)
    (h : ∀ k < size, d (base' + k) = d (base + k)) (hk : k < size) :
    t.putEntry d base' i v (base' + k) = t.putEntry d base i v (base + k) := by
  by_cases hin : k < t.entryOffset i ∨ t.entryOffset i + t.bytes ≤ k
  · rw [putEntry_outside (by omega), putEntry_outside (by omega), h k hk]
  · obtain ⟨m, hm, rfl⟩ : ∃ m < t.bytes, k = t.entryOffset i + m :=
      ⟨k - t.entryOffset i, by omega, by omega⟩
    rw [← Nat.add_assoc, ← Nat.add_assoc]
    cases t
    · have hw : le16 d (base' + (i + i / 2)) = le16 d (base + (i + i / 2)) := by
        have h0 := h (i + i / 2) (by simp only [entryOffset, bytes] at hfit; omega)
        have h1 : d (base' + (i + i / 2) + 1) = d (base + (i + i / 2) + 1) :=
          h (i + i / 2 + 1) (by simp only [entryOffset, bytes] at hfit; omega)
        rw [le16_eq, le16_eq, h0, h1]
      simp only [putEntry, entryOffset, hw, putLe16_apply _ _ _ m hm]
    · simp only [putEntry, entryOffset, putLe16_apply _ _ _ m hm]
    · have h3 : d (base' + i * 4 + 3) = d (base + i * 4 + 3) :=
        h (i * 4 + 3) (by simp only [entryOffset, bytes] at hfit; omega)
      simp only [putEntry, entryOffset, h3, putLe32_apply _ _ _ m hm]

theorem entryAt_congr {d' : Disk}
    (h : ∀ k < t.bytes, d' (base + t.entryOffset i + k) = d (base + t.entryOffset i + k)) :
    t.entryAt d' base i = t.entryAt d base i := by
  cases t
  · have hw : le16 d' (base + (i + i / 2)) = le16 d (base + (i + i / 2)) := le16_congr h
    simp only [entryAt, hw]
  · exact le16_congr h
  · have hw : le32 d' (base + i * 4) = le32 d (base + i * 4) := le32_congr h
    simp only [entryAt, hw]

theorem entryAt_putEntry (hv : v < 2 ^ t.width) : t.entryAt (t.putEntry d base i v) base i = v := by
  cases t
  · have hv' : v < 4096 := hv
    simp only [entryAt, putEntry, le16_putLe16]
    split_ifs <;> omega
  · have hv' : v < 65536 := hv
    simp only [entryAt, putEntry, le16_putLe16]
    omega
  · have hv' : v < 2 ^ 28 := hv
    simp only [entryAt, putEntry, le32_putLe32]
    omega

/-- A FAT12 word shares a byte with each neighbour: the four bits that belong to the neighbour
are put back. -/
theorem entryAt_putEntry_fat12_ne (hv : v < 4096) (hj : j ≠ i) :
    FatType.fat12.entryAt (FatType.fat12.putEntry d base i v) base j =
      FatType.fat12.entryAt d base j := by
  have h0 := (d (base + (i + i / 2))).toNat_lt
  have h1 := (d (base + (i + i / 2) + 1)).toNat_lt
  have hi := le16_eq d (base + (i + i / 2))
  simp only [entryAt, putEntry]
  generalize hw : (if i % 2 = 1 then _ else _ : Nat) = w
  by_cases hnext : j = i + 1 ∧ i % 2 = 0
  · -- the neighbour's first byte is this entry's second
    obtain ⟨rfl, he⟩ := hnext
    have hp : base + (i + 1 + (i + 1) / 2) = base + (i + i / 2) + 1 := by omega
    rw [if_pos (by omega : (i + 1) % 2 = 1), if_pos (by omega : (i + 1) % 2 = 1), hp, le16_eq,
      le16_eq, putLe16_apply d _ w 1 (by decide), putLe16_outside (by omega), byteOf_toNat, ← hw,
      if_neg (by omega), hi]
    omega
  · by_cases hprev : i = j + 1 ∧ i % 2 = 1
    · obtain ⟨rfl, ho⟩ := hprev
      have hp : base + (j + 1 + (j + 1) / 2) = base + (j + j / 2) + 1 := by omega
      rw [hp] at hw h0 h1 hi ⊢
      have hb := putLe16_apply d (base + (j + j / 2) + 1) w 0 (by decide)
      rw [Nat.add_zero] at hb
      rw [if_neg (by omega), if_neg (by omega), le16_eq, le16_eq, hb, putLe16_outside (by omega),
        byteOf_toNat, ← hw, if_pos ho, hi]
      omega
    · rw [le16_congr (fun k hk => putLe16_outside (by omega))]

theorem entryAt_putEntry_ne (hv : v < 2 ^ t.width) (hj : j ≠ i) :
    t.entryAt (t.putEntry d base i v) base j = t.entryAt d base j := by
  cases t
  · exact entryAt_putEntry_fat12_ne hv hj
  · apply entryAt_congr
    intro k hk
    have hk' : k < 2 := hk
    apply putEntry_outside
    simp only [entryOffset, bytes]
    omega
  · apply entryAt_congr
    intro k hk
    have hk' : k < 4 := hk
    apply putEntry_outside
    simp only [entryOffset, bytes]
    omega

theorem putEntry_fat32_reserved (hv : v < 2 ^ 28) :
    (FatType.fat32.putEntry d base i v (base + j * 4 + 3)).toNat / 16 =
      (d (base + j * 4 + 3)).toNat / 16 := by
  have h := (d (base + j * 4 + 3)).toNat_lt
  by_cases hj : j = i
  · subst hj
    simp only [putEntry]
    rw [putLe32_apply _ _ _ 3 (by decide), byteOf_toNat]
    omega
  · rw [putEntry_outside (by simp only [entryOffset, bytes]; omega)]

end FatType

end CfKernel.Fat
