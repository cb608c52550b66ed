import CfKernel.Errno
import CfKernel.Lib.Bytes

/-!
# Block devices and the FAT superblock

`blockdev_read` and `blockdev_write` on a device that reports no I/O error, `fat_probe_type` and
`fat_mount_fn`. A `FatSuper` is a superblock together with what `fat_probe_type` checked about it,
so that every later result can use the layout of an accepted volume.
-/

namespace CfKernel.Fat

open Lib

/-- A registered device. `ata_identify` clips the sector count to the LBA28 limit, and
`partition_scan` only registers ranges inside such a disk. -/
structure BlockDev where
  sectorSize : Nat
  sectorCount : Nat
  lba28 : sectorCount ≤ 0x10000000

abbrev Disk := Bytes

def blockdevRead (sectorSize sectorCount : Nat) (d : Disk) (lba count : Nat) : Except Errno Bytes :=
  if count ≠ 0 ∧ (sectorCount ≤ lba ∨ sectorCount - lba < count) then .error .invalidArgument
  else .ok (window d (lba * sectorSize))

def blockdevWrite (sectorSize sectorCount : Nat) (d : Disk) (lba count : Nat) (buf : Bytes) :
    Except Errno Disk :=
  if count ≠ 0 ∧ (sectorCount ≤ lba ∨ sectorCount - lba < count) then .error .invalidArgument
  else .ok (splice d (lba * sectorSize) (count * sectorSize) buf)

inductive FatType where
  | fat12
  | fat16
  | fat32
  deriving DecidableEq, Repr

/-- The fields `fat_mount_fn` copies out of the boot sector. -/
structure FatBpb where
  bytesPerSector : UInt16
  sectorsPerCluster : UInt8
  reservedSectors : UInt16
  fatCount : UInt8
  rootEntries : UInt16
  totalSectors16 : UInt16
  totalSectors32 : UInt32
  sectorsPerFat16 : UInt16
  sectorsPerFat32 : UInt32
  rootCluster : UInt32

/-- The superblock as `fat_probe_type` completes it, with the device's sector count. -/
structure FatLayout where
  type : FatType
  bytesPerSector : Nat
  sectorsPerCluster : Nat
  fatCount : Nat
  rootEntries : Nat
  fatStart : Nat
  rootDirStart : Nat
  dataStart : Nat
  rootCluster : Nat
  volumeSectors : Nat
  fatSectors : Nat
  rootDirSectors : Nat
  clusterCount : Nat
  sectorCount : Nat

def fatTypeOf (clusterCount : Nat) : FatType :=
  if clusterCount < 4085 then .fat12 else if clusterCount < 65525 then .fat16 else .fat32

def fatProbeLayout (sectorSize sectorCount : Nat) (bpb : FatBpb) (totalSectors : Nat) :
    Except Errno FatLayout :=
  let bps := bpb.bytesPerSector.toNat
  let spc := bpb.sectorsPerCluster.toNat
  let reserved := bpb.reservedSectors.toNat
  let fatCount := bpb.fatCount.toNat
  let rootEntries := bpb.rootEntries.toNat
  let spf16 := bpb.sectorsPerFat16.toNat
  let rootCluster := bpb.rootCluster.toNat
  if totalSectors = 0 ∨ bps ≠ 512 ∨ sectorSize ≠ bps ∨ spc = 0 ∨ spc &&& (spc - 1) ≠ 0 ∨
      spc > 128 ∨ reserved = 0 ∨ (fatCount ≠ 1 ∧ fatCount ≠ 2) then .error .notSupported
  else
    let fatSectors := if spf16 ≠ 0 then spf16 else bpb.sectorsPerFat32.toNat
    if fatSectors = 0 ∨ fatSectors > totalSectors ∨ totalSectors > sectorCount then
      .error .ioError
    else
      let rootDirSectors := (rootEntries * 32 + bps - 1) / bps
      let fatsArea := u32 (fatCount * fatSectors)
      if fatsArea / fatCount ≠ fatSectors ∨ reserved > totalSectors ∨
          fatsArea > totalSectors - reserved ∨
          rootDirSectors > totalSectors - reserved - fatsArea then .error .ioError
      else
        let rootDirStart := reserved + fatsArea
        let dataStart := rootDirStart + rootDirSectors
        let clusterCount := (totalSectors - dataStart) / spc
        let type := fatTypeOf clusterCount
        if clusterCount = 0 then .error .ioError
        else if (type = .fat32 ∧ (spf16 ≠ 0 ∨ rootEntries ≠ 0 ∨ rootCluster < 2 ∨
              rootCluster ≥ clusterCount + 2)) ∨
            (type ≠ .fat32 ∧ (spf16 = 0 ∨ rootEntries = 0)) then .error .ioError
        else if clusterCount + 2 > fatSectors * bps * 2 / 3 ∧ type = .fat12 then .error .ioError
        else if type = .fat16 ∧ clusterCount + 2 > fatSectors * (bps / 2) then .error .ioError
        else if type = .fat32 ∧ clusterCount + 2 > fatSectors * (bps / 4) then .error .ioError
        else .ok
          { type, bytesPerSector := bps, sectorsPerCluster := spc, fatCount, rootEntries,
            fatStart := reserved, rootDirStart, dataStart, rootCluster,
            volumeSectors := totalSectors, fatSectors, rootDirSectors, clusterCount,
            sectorCount }

/-- The areas of an accepted volume, on a device of any size. -/
structure FatLayout.Laid (sb : FatLayout) : Prop where
  spc_pos : 0 < sb.sectorsPerCluster
  fatCount : sb.fatCount = 1 ∨ sb.fatCount = 2
  fatSectors_pos : 0 < sb.fatSectors
  fatStart_pos : 0 < sb.fatStart
  rootDirStart : sb.rootDirStart = sb.fatStart + sb.fatCount * sb.fatSectors
  dataStart : sb.dataStart = sb.rootDirStart + sb.rootDirSectors
  data_le : sb.dataStart + sb.clusterCount * sb.sectorsPerCluster ≤ sb.volumeSectors
  volume_le : sb.volumeSectors ≤ sb.sectorCount
  type : sb.type = fatTypeOf sb.clusterCount
  fat32 : sb.type = .fat32 → sb.clusterCount + 2 ≤ sb.fatSectors * 128

variable {bpb : FatBpb}

theorem fatProbeLayout_laid {sectorSize sectorCount : Nat} {total : Nat}
 {sb : FatLayout} (h : fatProbeLayout sectorSize sectorCount bpb total = .ok sb) :
    sb.Laid ∧ sb.sectorCount = sectorCount := by
  unfold fatProbeLayout at h
  extract_lets bps spc reserved fatCount rootEntries spf16 rootCluster fatSectors rootDirSectors
    fatsArea rootDirStart dataStart clusterCount type at h
  split_ifs at h with h1 h2 h3 h4 h5 h6 h7 h8
  push Not at h1 h2 h3
  obtain ⟨-, hbps, -, hspc, -, -, hres, hfc⟩ := h1
  obtain ⟨hfs, -, htot⟩ := h2
  obtain ⟨harea, hrt, hfa, hrd⟩ := h3
  have hfc' : fatCount = 1 ∨ fatCount = 2 := by omega
  -- Dividing the product again gives the sectors only when it did not wrap.
  have harea : fatsArea = fatCount * fatSectors := by
    have hle : fatsArea ≤ fatCount * fatSectors := Nat.mod_le _ _
    clear_value fatsArea fatSectors fatCount
    rcases hfc' with rfl | rfl <;> omega
  have hdiv : clusterCount * spc ≤ total - dataStart := Nat.div_mul_le_self _ _
  have hle : dataStart + clusterCount * spc ≤ total := by
    have hdata : dataStart = reserved + fatsArea + rootDirSectors := rfl
    clear_value dataStart clusterCount spc reserved fatsArea rootDirSectors
    omega
  cases h
  refine ⟨⟨Nat.pos_of_ne_zero hspc, hfc', Nat.pos_of_ne_zero hfs, Nat.pos_of_ne_zero hres,
    by simp only [rootDirStart, harea], rfl, hle, htot, rfl, fun ht => ?_⟩, rfl⟩
  simp only at ht ⊢
  have hcap := not_and.mp h8 ht
  rw [hbps] at hcap
  exact not_lt.mp hcap

/-- What acceptance by `fat_probe_type` on an LBA28 device says about the layout. -/
structure FatLayout.Sound (sb : FatLayout) : Prop where
  bps : sb.bytesPerSector = 512
  spc_pos : 0 < sb.sectorsPerCluster
  spc_le : sb.sectorsPerCluster ≤ 128
  fatCount : sb.fatCount = 1 ∨ sb.fatCount = 2
  fatSectors_pos : 0 < sb.fatSectors
  fatStart_pos : 0 < sb.fatStart
  rootDirStart : sb.rootDirStart = sb.fatStart + sb.fatCount * sb.fatSectors
  dataStart : sb.dataStart = sb.rootDirStart + sb.rootDirSectors
  data_le : sb.dataStart + sb.clusterCount * sb.sectorsPerCluster ≤ sb.volumeSectors
  volume_le : sb.volumeSectors ≤ sb.sectorCount
  lba28 : sb.sectorCount ≤ 0x10000000
  clusterCount_pos : 0 < sb.clusterCount
  rootDir : sb.rootDirSectors = (sb.rootEntries * 32 + 511) / 512
  type : sb.type = fatTypeOf sb.clusterCount
  fat12 : sb.type = .fat12 → 3 * (sb.clusterCount + 2) ≤ 2 * (sb.fatSectors * 512)
  fat16 : sb.type = .fat16 → sb.clusterCount + 2 ≤ sb.fatSectors * 256
  fat32 : sb.type = .fat32 → sb.clusterCount + 2 ≤ sb.fatSectors * 128 ∧
    2 ≤ sb.rootCluster ∧ sb.rootCluster < sb.clusterCount + 2
  narrow : sb.type ≠ .fat32 → sb.fatSectors < 65536

theorem fatProbeLayout_sound {sectorSize sectorCount : Nat} {total : Nat}
 {sb : FatLayout} (hlba : sectorCount ≤ 0x10000000)
    (h : fatProbeLayout sectorSize sectorCount bpb total = .ok sb) : sb.Sound := by
  obtain ⟨hlaid, hcount⟩ := fatProbeLayout_laid h
  unfold fatProbeLayout at h
  extract_lets bps spc reserved fatCount rootEntries spf16 rootCluster fatSectors rootDirSectors
    fatsArea rootDirStart dataStart clusterCount type at h
  split_ifs at h with h1 h2 h3 h4 h5 h6 h7 h8
  push Not at h1 h5
  obtain ⟨-, hbps, -, -, -, hspc', -, -⟩ := h1
  have hspf : spf16 < 65536 := bpb.sectorsPerFat16.toNat_lt
  cases h
  refine { hlaid with
    bps := hbps, spc_le := hspc', lba28 := hlba, clusterCount_pos := Nat.pos_of_ne_zero h4
    rootDir := by simp only [rootDirSectors, hbps]; rfl
    fat12 := fun ht => ?_, fat16 := fun ht => ?_
    fat32 := fun ht => ⟨hlaid.fat32 ht, (h5.1 ht).2.2⟩, narrow := fun ht => ?_ }
  all_goals simp only at ht ⊢
  · have hcap := not_and'.mp h6 ht
    rw [hbps] at hcap
    clear_value clusterCount fatSectors
    omega
  · have hcap := not_and.mp h7 ht
    rw [hbps] at hcap
    exact not_lt.mp hcap
  · have hs : spf16 ≠ 0 := (h5.2 ht).1
    simp only [fatSectors, if_pos hs]
    exact hspf

/-- A superblock that `fat_probe_type` accepted. -/
structure FatSuper extends FatLayout where
  sound : toFatLayout.Sound

def fatProbeType (bd : BlockDev) (bpb : FatBpb) (totalSectors : Nat) : Except Errno FatSuper :=
  match h : fatProbeLayout bd.sectorSize bd.sectorCount bpb totalSectors with
  | .error e => .error e
  | .ok sb => .ok ⟨sb, fatProbeLayout_sound bd.lba28 h⟩

def fatReadBpb (b : Bytes) : FatBpb where
  bytesPerSector := .ofNat (le16 b 11)
  sectorsPerCluster := b 13
  reservedSectors := .ofNat (le16 b 14)
  fatCount := b 16
  rootEntries := .ofNat (le16 b 17)
  totalSectors16 := .ofNat (le16 b 19)
  sectorsPerFat16 := .ofNat (le16 b 22)
  totalSectors32 := .ofNat (le32 b 32)
  sectorsPerFat32 := .ofNat (le32 b 36)
  rootCluster := .ofNat (le32 b 44 &&& 0x0FFFFFFF)

/-- `fat_mount_fn` up to the root vnode, whose node is `fatRootNode` below. -/
def fatMountFn (bd : BlockDev) (d : Disk) : Except Errno FatSuper := do
  let b ← blockdevRead bd.sectorSize bd.sectorCount d 0 1
  if b 510 ≠ 0x55 ∨ b 511 ≠ 0xAA then .error .ioError
  else
    let bpb := fatReadBpb b
    let totalSectors := if bpb.totalSectors16 ≠ 0 then bpb.totalSectors16.toNat
      else bpb.totalSectors32.toNat
    fatProbeType bd bpb totalSectors

namespace FatSuper

variable (sb : FatSuper)

def clusterSize : Nat := sb.bytesPerSector * sb.sectorsPerCluster

theorem clusterSize_eq : sb.clusterSize = 512 * sb.sectorsPerCluster := by
  rw [clusterSize, sb.sound.bps]

theorem clusterSize_pos : 0 < sb.clusterSize := by
  have := sb.sound.spc_pos
  rw [clusterSize_eq]
  omega

theorem clusterSize_le : sb.clusterSize ≤ 65536 := by
  have := sb.sound.spc_le
  rw [clusterSize_eq]
  omega

theorem fatArea_le : sb.fatStart + sb.fatCount * sb.fatSectors ≤ sb.dataStart := by
  rw [sb.sound.dataStart, sb.sound.rootDirStart]
  omega

theorem dataStart_le : sb.dataStart ≤ sb.sectorCount :=
  le_trans (by have := sb.sound.data_le; omega) sb.sound.volume_le

theorem clusterCount_lt : sb.clusterCount < 0x10000000 := by
  have h1 := sb.sound.data_le
  have h2 := sb.sound.volume_le
  have h3 := sb.sound.lba28
  have h4 := sb.sound.fatStart_pos
  have h5 := sb.fatArea_le
  have h6 : sb.clusterCount * 1 ≤ sb.clusterCount * sb.sectorsPerCluster :=
    Nat.mul_le_mul_left _ sb.sound.spc_pos
  omega

end FatSuper

end CfKernel.Fat
