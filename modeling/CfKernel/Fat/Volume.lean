import CfKernel.Fat.TableUpdate

/-!
# Clusters, the state of a FAT call, and the chain step

A FAT call works on the disk, on the kernel heap, on the `fat_node_t` behind its vnode, and on the
buffers of its caller. The heap only matters through which `malloc` calls succeed: `mem` lists the
outcomes of the calls to come, and every result holds for every such list.
-/

namespace CfKernel.Fat

open Lib

/-- `fat_node_t`, less its pointer to the superblock. -/
structure FatNode where
  firstCluster : Nat
  size : Nat
  attr : UInt8
  dirSector : Nat
  dirOffset : Nat
  hasDirent : Bool
  deriving DecidableEq, Repr

/-- `vn->type == VNODE_TYPE_DIR`, as `fat_alloc_vnode` sets it. -/
def FatNode.isDir (node : FatNode) : Bool := node.attr &&& 0x10 ≠ 0

structure FatState where
  disk : Disk
  mem : Nat → Bool
  node : FatNode
  /-- The caller's `*out`. -/
  out : Nat
  /-- The caller's read buffer. -/
  dst : Bytes

abbrev FatM := Eff Errno FatState

/-- `malloc` of a buffer that the call frees before it returns, with its `NULL` test. -/
def malloc : FatM Unit := fun s =>
  (if s.mem 0 then .ok () else .error .outOfMemory, { s with mem := fun n => s.mem (n + 1) })

def onDisk {α : Type} (f : Disk → Except Errno α) : FatM α := Eff.read fun s => f s.disk

def toDisk (f : Disk → Except Errno Disk) : FatM Unit :=
  Eff.write fun s => (f s.disk).map fun d => { s with disk := d }

def getNode : FatM FatNode := Eff.read fun s => .ok s.node

def modifyNode (f : FatNode → FatNode) : FatM Unit :=
  Eff.modify fun s => { s with node := f s.node }

def fatReadSector (sb : FatSuper) (d : Disk) (lba : Nat) : Except Errno Bytes :=
  sb.readSectors d lba 1

def fatWriteSector (sb : FatSuper) (d : Disk) (lba : Nat) (buf : Bytes) : Except Errno Disk :=
  sb.writeSectors d lba 1 buf

def fatClusterToLba (sb : FatSuper) (cluster : Nat) : Nat :=
  u32 (sb.dataStart + u32 (u32 (cluster + (2 ^ 32 - 2)) * sb.sectorsPerCluster))

def fatReadCluster (sb : FatSuper) (d : Disk) (cluster : Nat) : Except Errno Bytes :=
  if cluster < 2 ∨ sb.clusterCount + 2 ≤ cluster then .error .ioError
  else
    let lba := fatClusterToLba sb cluster
    if sb.volumeSectors ≤ lba ∨ sb.volumeSectors - lba < sb.sectorsPerCluster then .error .ioError
    else sb.readSectors d lba sb.sectorsPerCluster

def fatWriteCluster (sb : FatSuper) (d : Disk) (cluster : Nat) (buf : Bytes) : Except Errno Disk :=
  if cluster < 2 ∨ sb.clusterCount + 2 ≤ cluster then .error .ioError
  else
    let lba := fatClusterToLba sb cluster
    if sb.volumeSectors ≤ lba ∨ sb.volumeSectors - lba < sb.sectorsPerCluster then .error .ioError
    else sb.writeSectors d lba sb.sectorsPerCluster buf

/-- The cluster after `cluster`, or `0` at the end of the chain. -/
def fatNextCluster (sb : FatSuper) (d : Disk) (cluster : Nat) : Except Errno Nat := do
  let value ← sb.getFatEntry d cluster
  if isEoc sb.type value then .ok 0
  else if value < 2 ∨ sb.clusterCount + 2 ≤ value then .error .ioError
  else .ok value

def fatEocMarker (sb : FatSuper) : Nat :=
  match sb.type with
  | .fat12 => 0x0FFF
  | .fat16 => 0xFFFF
  | .fat32 => 0x0FFFFFFF

namespace FatSuper

variable (sb : FatSuper)

def IsCluster (c : Nat) : Prop := 2 ≤ c ∧ c < sb.clusterCount + 2

instance (c : Nat) : Decidable (sb.IsCluster c) := inferInstanceAs (Decidable (_ ∧ _))

def clusterAddr (c : Nat) : Nat := (sb.dataStart + (c - 2) * sb.sectorsPerCluster) * 512

def InCluster (c a : Nat) : Prop := sb.clusterAddr c ≤ a ∧ a < sb.clusterAddr c + sb.clusterSize

variable {sb} {c c' a : Nat} {d : Disk}

theorem IsCluster.sectors_le (h : sb.IsCluster c) :
    sb.dataStart + (c - 2) * sb.sectorsPerCluster + sb.sectorsPerCluster ≤ sb.volumeSectors := by
  have h1 := sb.sound.data_le
  have h2 : (c - 2 + 1) * sb.sectorsPerCluster ≤ sb.clusterCount * sb.sectorsPerCluster :=
    Nat.mul_le_mul_right _ (by have := h.1; have := h.2; omega)
  rw [Nat.add_mul, Nat.one_mul] at h2
  omega

theorem volume_lt (sb : FatSuper) : sb.volumeSectors < 2 ^ 32 := by
  have h1 := sb.sound.volume_le
  have h2 := sb.sound.lba28
  omega

theorem IsCluster.lba (h : sb.IsCluster c) :
    fatClusterToLba sb c = sb.dataStart + (c - 2) * sb.sectorsPerCluster := by
  have h1 := h.sectors_le
  have h2 := sb.volume_lt
  have h3 := sb.clusterCount_lt
  have hc : u32 (c + (2 ^ 32 - 2)) = c - 2 := by
    have := h.1
    have := h.2
    unfold u32
    omega
  rw [fatClusterToLba, hc, u32_of_lt (n := (c - 2) * sb.sectorsPerCluster) (by omega),
    u32_of_lt (by omega)]

theorem IsCluster.readCluster (h : sb.IsCluster c) :
    fatReadCluster sb d c = .ok (window d (sb.clusterAddr c)) := by
  have h1 := h.sectors_le
  have h2 := sb.sound.volume_le
  have h3 := sb.sound.spc_pos
  have := h.1
  have := h.2
  rw [fatReadCluster, if_neg (by omega), h.lba]
  rw [if_neg (by omega), sb.readSectors_ok d (by omega), clusterAddr]

theorem IsCluster.writeCluster (h : sb.IsCluster c) (buf : Bytes) :
    fatWriteCluster sb d c buf = .ok (splice d (sb.clusterAddr c) sb.clusterSize buf) := by
  have h1 := h.sectors_le
  have h2 := sb.sound.volume_le
  have h3 := sb.sound.spc_pos
  have := h.1
  have := h.2
  rw [fatWriteCluster, if_neg (by omega), h.lba]
  rw [if_neg (by omega), sb.writeSectors_ok d buf (by omega), clusterAddr, clusterSize_eq,
    Nat.mul_comm 512]

theorem clusterAddr_ge (sb : FatSuper) (c : Nat) : sb.dataStart * 512 ≤ sb.clusterAddr c := by
  apply Nat.mul_le_mul_right
  omega

theorem rootDirStart_le (sb : FatSuper) : sb.rootDirStart ≤ sb.dataStart := by
  rw [sb.sound.dataStart]
  omega

theorem InCluster.ge_data (h : sb.InCluster c a) : sb.dataStart * 512 ≤ a :=
  (sb.clusterAddr_ge c).trans h.1

theorem InCluster.ge (h : sb.InCluster c a) : sb.rootDirStart * 512 ≤ a :=
  (Nat.mul_le_mul_right _ sb.rootDirStart_le).trans h.ge_data

theorem inCluster_unique (h : sb.IsCluster c) (h' : sb.IsCluster c') (ha : sb.InCluster c a)
    (ha' : sb.InCluster c' a) : c = c' := by
  have key : ∀ {x y : Nat}, 2 ≤ x → x < y → sb.clusterAddr x + sb.clusterSize ≤ sb.clusterAddr y := by
    intro x y hx hxy
    have hm : (x - 2 + 1) * sb.sectorsPerCluster ≤ (y - 2) * sb.sectorsPerCluster :=
      Nat.mul_le_mul_right _ (by omega)
    rw [Nat.add_mul, Nat.one_mul] at hm
    simp only [clusterAddr, clusterSize_eq]
    omega
  unfold InCluster at ha ha'
  rcases lt_trichotomy c c' with hlt | heq | hgt
  · have := key h.1 hlt
    omega
  · exact heq
  · have := key h'.1 hgt
    omega

theorem eocMarker_lt (sb : FatSuper) : fatEocMarker sb < 2 ^ sb.type.width := by
  unfold fatEocMarker
  cases sb.type <;> decide

theorem isEoc_eocMarker (sb : FatSuper) : isEoc sb.type (fatEocMarker sb) = true := by
  unfold fatEocMarker
  cases sb.type <;> decide

theorem IsCluster.entry (h : sb.IsCluster c) : c < 2 ^ sb.type.width ∧ isEoc sb.type c = false := by
  have h1 := h.2
  have h2 := sb.sound.type
  have h3 := sb.clusterCount_lt
  unfold fatTypeOf at h2
  split_ifs at h2 with hs hs' <;> rw [h2]
  · exact ⟨by simp only [
    FatType.width]; omega, by simp only [isEoc, decide_eq_false_iff_not]; omega⟩
  · exact ⟨by simp only [
    FatType.width]; omega, by simp only [isEoc, decide_eq_false_iff_not]; omega⟩
  · have hmask : c &&& 0x0FFFFFFF = c % 2 ^ 28 := Nat.and_two_pow_sub_one_eq_mod c 28
    have hdata := sb.sound.data_le
    have hvol := sb.sound.volume_le
    have hlba := sb.sound.lba28
    have harea := sb.fatArea_le
    have hcap := (sb.sound.fat32 h2).1
    have hspc : sb.clusterCount * 1 ≤ sb.clusterCount * sb.sectorsPerCluster :=
      Nat.mul_le_mul_left _ sb.sound.spc_pos
    have hfat : 1 * sb.fatSectors ≤ sb.fatCount * sb.fatSectors :=
      Nat.mul_le_mul_right _ sb.fatCount_pos
    have hlt : c < 0x0FFFFFF8 := by omega
    refine ⟨by simp only [FatType.width]; omega, ?_⟩
    simp only [isEoc, hmask, decide_eq_false_iff_not]
    omega

end FatSuper

end CfKernel.Fat
