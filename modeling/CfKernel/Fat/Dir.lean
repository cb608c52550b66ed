import CfKernel.Fat.ChainSpec

/-!
# Directories

Directory entries and their 8.3 names, the directory walk `fat_iter_dir` with its callbacks, the
search for a free slot, and the directory operations `fat_lookup_vn`, `fat_create_vn` and
`fat_unlink_vn`. A name is the list of characters of a C string.
-/

namespace CfKernel.Fat

open Lib

/-- `struct fat_dirent`, as far as the driver reads it. -/
structure FatDirent where
  name : List UInt8
  attr : UInt8
  fstClusHi : Nat
  fstClusLo : Nat
  fileSize : Nat
  deriving DecidableEq

def direntAt (buf : Bytes) (off : Nat) : FatDirent where
  name := (List.range 11).map fun i => buf (off + i)
  attr := buf (off + 11)
  fstClusHi := le16 buf (off + 20)
  fstClusLo := le16 buf (off + 26)
  fileSize := le32 buf (off + 28)

def FatDirent.cluster (de : FatDirent) : Nat := (de.fstClusHi <<< 16) ||| de.fstClusLo

/-- `fat_name_to_str`, read as the C string up to its first zero. -/
def fatNameToStr (name : List UInt8) : List UInt8 :=
  let base := (name.take 8).takeWhile (· ≠ 0x20)
  let ext := if name.getD 8 0x20 ≠ 0x20 then 0x2E :: (name.drop 8).takeWhile (· ≠ 0x20) else []
  (base ++ ext).takeWhile (· ≠ 0)

def toLowerAscii (c : UInt8) : UInt8 := if 0x41 ≤ c ∧ c ≤ 0x5A then c + 32 else c

def strcasecmpEq : List UInt8 → List UInt8 → Bool
  | [], [] => true
  | a :: as, b :: bs => toLowerAscii a = toLowerAscii b && strcasecmpEq as bs
  | _, _ => false

/-- What a walk does next: `stop` is its `return ERR_SUCCESS`. -/
inductive Scan (γ : Type) where
  | go (ctx : γ)
  | stop (ctx : γ)

def Scan.ctx {γ : Type} : Scan γ → γ
  | .go ctx => ctx
  | .stop ctx => ctx

abbrev DirCallback (γ : Type) := FatDirent → List UInt8 → Nat → Nat → γ → Bool × γ

section Walk

variable {γ : Type} (sb : FatSuper) (cb : DirCallback γ)

/-- One slot: an end mark ends the walk; deleted slots, long names and labels are passed over. -/
def fatVisit (buf : Bytes) (off sector offset : Nat) (ctx : γ) : Scan γ :=
  let de := direntAt buf off
  if buf off = 0x00 then .stop ctx
  else if buf off = 0xE5 then .go ctx
  else if de.attr = 0x0F ∨ de.attr &&& 0x08 ≠ 0 then .go ctx
  else
    match cb de (fatNameToStr de.name) sector offset ctx with
    | (true, ctx) => .stop ctx
    | (false, ctx) => .go ctx

/-- The slots of one sector of the fixed root directory. -/
def fatIterRootSector (buf : Bytes) (lba : Nat) : Nat → Nat → Nat → γ → Scan γ × Nat
  | 0, _, entries, ctx => (.go ctx, entries)
  | n + 1, off, entries, ctx =>
    if sb.rootEntries ≤ entries then (.stop ctx, entries + 1)
    else
      match fatVisit cb buf off lba off ctx with
      | .stop ctx => (.stop ctx, entries + 1)
      | .go ctx => fatIterRootSector buf lba n (off + 32) (entries + 1) ctx

def fatIterRoot (d : Disk) : Nat → Nat → Nat → γ → Except Errno γ
  | 0, _, _, ctx => .ok ctx
  | n + 1, s, entries, ctx => do
    let buf ← fatReadSector sb d (sb.rootDirStart + s)
    match fatIterRootSector sb cb buf (sb.rootDirStart + s) (sb.bytesPerSector / 32) 0 entries ctx
      with
    | (.stop ctx, _) => .ok ctx
    | (.go ctx, entries) => fatIterRoot d n (s + 1) entries ctx

def fatIterCluster (buf : Bytes) (lba : Nat) : Nat → Nat → γ → Scan γ
  | 0, _, ctx => .go ctx
  | n + 1, off, ctx =>
    match fatVisit cb buf off (lba + off / sb.bytesPerSector) (off % sb.bytesPerSector) ctx with
    | .stop ctx => .stop ctx
    | .go ctx => fatIterCluster buf lba n (off + 32) ctx

def fatIterChain (d : Disk) : Nat → Nat → γ → Except Errno γ
  | 0, _, _ => .error .ioError
  | n + 1, cluster, ctx => do
    let buf ← fatReadCluster sb d cluster
    match fatIterCluster sb cb buf (fatClusterToLba sb cluster) (sb.clusterSize / 32) 0 ctx with
    | .stop ctx => .ok ctx
    | .go ctx =>
      let next ← fatNextCluster sb d cluster
      if next = 0 then .ok ctx else fatIterChain d n next ctx

def fatIterDir (node : FatNode) (ctx : γ) : FatM γ := do
  malloc
  onDisk fun d =>
    if node.firstCluster = 0 ∧ sb.type ≠ .fat32 then
      fatIterRoot sb cb d sb.rootDirSectors 0 0 ctx
    else fatIterChain sb cb d sb.clusterCount node.firstCluster ctx

end Walk

/-- The node `fat_lookup_cb` builds for an entry. -/
def fatNodeOf (de : FatDirent) (sector offset : Nat) : FatNode where
  firstCluster := de.cluster
  size := de.fileSize
  attr := de.attr
  dirSector := sector
  dirOffset := offset
  hasDirent := true

def fatLookupCb (want : List UInt8) : DirCallback (Option FatNode) :=
  fun de name sector offset ctx =>
    if strcasecmpEq name want then (true, some (fatNodeOf de sector offset)) else (false, ctx)

/-- The two allocations of `fat_alloc_vnode`. -/
def fatAllocVnode : FatM Unit := do
  malloc
  malloc

def fatLookupVn (sb : FatSuper) (dir : FatNode) (name : List UInt8) : FatM FatNode :=
  if dir.isDir = false then Eff.fail .invalidArgument
  else do
    match ← fatIterDir sb (fatLookupCb name) dir none with
    | none => Eff.fail .notFound
    | some node => do
      fatAllocVnode
      pure node

def slotIsFree (b : UInt8) : Bool := b = 0 || b = 0xE5

/-- A free slot in one sector of the fixed root directory. -/
def fatRootSectorSlot (sb : FatSuper) (buf : Bytes) :
    Nat → Nat → Nat → Except Errno (Option Nat × Nat)
  | 0, _, entries => .ok (none, entries)
  | n + 1, off, entries =>
    if sb.rootEntries ≤ entries then .error .noSpaceLeft
    else if slotIsFree (buf off) then .ok (some off, entries + 1)
    else fatRootSectorSlot sb buf n (off + 32) (entries + 1)

def fatRootSlot (sb : FatSuper) (d : Disk) : Nat → Nat → Nat → Except Errno (Nat × Nat)
  | 0, _, _ => .error .noSpaceLeft
  | n + 1, s, entries => do
    let buf ← fatReadSector sb d (sb.rootDirStart + s)
    match ← fatRootSectorSlot sb buf (sb.bytesPerSector / 32) 0 entries with
    | (some off, _) => .ok (sb.rootDirStart + s, off)
    | (none, entries) => fatRootSlot sb d n (s + 1) entries

def fatSectorSlot (buf : Bytes) : Nat → Nat → Option Nat
  | 0, _ => none
  | n + 1, off => if slotIsFree (buf off) then some off else fatSectorSlot buf n (off + 32)

def fatClusterSlot (sb : FatSuper) (d : Disk) : Nat → Nat → Except Errno (Option (Nat × Nat))
  | 0, _ => .ok none
  | n + 1, lba => do
    let buf ← fatReadSector sb d lba
    match fatSectorSlot buf (sb.bytesPerSector / 32) 0 with
    | some off => .ok (some (lba, off))
    | none => fatClusterSlot sb d n (lba + 1)

def fatChainSlot (sb : FatSuper) : Nat → Nat → FatM (Nat × Nat)
  | 0, _ => Eff.fail .ioError
  | n + 1, cluster => do
    match ← onDisk fun d =>
        fatClusterSlot sb d sb.sectorsPerCluster (fatClusterToLba sb cluster) with
    | some slot => pure slot
    | none => do
      let next ← onDisk fun d => fatNextCluster sb d cluster
      if next ≠ 0 then fatChainSlot sb n next
      else do
        let newCluster ← fatAppendCluster sb cluster
        pure (fatClusterToLba sb newCluster, 0)

def fatFindFreeSlot (sb : FatSuper) (dir : FatNode) : FatM (Nat × Nat) :=
  if dir.firstCluster = 0 ∧ sb.type ≠ .fat32 then
    onDisk fun d => fatRootSlot sb d sb.rootDirSectors 0 0
  else if dir.firstCluster = 0 then Eff.fail .ioError
  else fatChainSlot sb sb.clusterCount dir.firstCluster

/-- The characters `fat_make_short_name` refuses besides blanks, controls and non-ASCII. -/
def shortNameExcluded : List UInt8 :=
  [0x2F, 0x5C, 0x3A, 0x2A, 0x3F, 0x22, 0x3C, 0x3E, 0x7C]

def fatShortChars : List UInt8 → List UInt8 → Nat → Nat → Bool → Except Errno (List UInt8)
  | [], out, _, _, _ => .ok out
  | c :: rest, out, baseLen, extLen, inExt =>
    if c = 0x2E then
      if inExt = true ∨ baseLen = 0 then .error .invalidArgument
      else fatShortChars rest out baseLen extLen true
    else if c ≤ 0x20 ∨ c ≥ 0x7F ∨ c ∈ shortNameExcluded then .error .invalidArgument
    else
      let c := if 0x61 ≤ c ∧ c ≤ 0x7A then c - 0x61 + 0x41 else c
      if inExt then
        if extLen + 1 > 3 then .error .nameTooLong
        else fatShortChars rest (out.set (8 + extLen) c) baseLen (extLen + 1) inExt
      else
        if baseLen + 1 > 8 then .error .nameTooLong
        else fatShortChars rest (out.set baseLen c) (baseLen + 1) extLen inExt

def fatMakeShortName (name : List UInt8) : Except Errno (List UInt8) :=
  if name = [] then .error .invalidArgument
  else fatShortChars name (List.replicate 11 0x20) 0 0 false

inductive VnodeType where
  | none
  | file
  | dir
  | dev
  | block
  | exec
  deriving DecidableEq, Repr

/-- The 32 bytes of a new entry: everything but name, attribute and cluster is zero. -/
def fatDirentBytes (name : List UInt8) (attr : UInt8) (cluster : Nat) : Bytes :=
  putLe16 (putLe16 (Function.update (fun i => name.getD i 0) 11 attr) 20 (cluster >>> 16)) 26
    cluster

/-- The first cluster of a new directory, with its `.` and `..` entries. -/
def fatDotContents (cluster parent : Nat) : Bytes :=
  splice (splice (fun _ => 0) 0 32 (fatDirentBytes (0x2E :: List.replicate 10 0x20) 0x10 cluster))
    32 32 (fatDirentBytes (0x2E :: 0x2E :: List.replicate 9 0x20) 0x10 parent)

/-- The part of `fat_create_vn` that leaves through its `fail` label. -/
def fatCreateEntry (sb : FatSuper) (dir : FatNode) (shortName : List UInt8) (type : VnodeType)
    (attr : UInt8) (sector offset firstCluster : Nat) : FatM Unit := do
  fatAllocVnode
  (if type = .dir then do
    malloc
    toDisk fun d => fatWriteCluster sb d firstCluster (fatDotContents firstCluster dir.firstCluster)
  else pure ())
  toDisk fun d => do
    let buf ← fatReadSector sb d sector
    fatWriteSector sb d sector
      (splice buf offset 32 (fatDirentBytes shortName attr firstCluster))

/-- `fat_create_vn` once it has a free slot. -/
def fatCreateAt (sb : FatSuper) (dir : FatNode) (shortName : List UInt8) (type : VnodeType)
    (sector offset : Nat) : FatM FatNode := do
  let firstCluster ← (if type = .dir then fatAllocCluster sb else pure 0)
  let attr : UInt8 := if type = .dir then 0x10 else 0x20
  match ← Eff.attempt (fatCreateEntry sb dir shortName type attr sector offset firstCluster) with
  | .ok _ =>
    pure { firstCluster, size := 0, attr, dirSector := sector, dirOffset := offset,
           hasDirent := true }
  | .error e => do
    let _ ← Eff.attempt (if firstCluster ≠ 0 then fatFreeChain sb firstCluster else pure ())
    Eff.fail e

def fatCreateVn (sb : FatSuper) (dir : FatNode) (name : List UInt8) (type : VnodeType) :
    FatM FatNode :=
  if dir.isDir = false ∨ (type ≠ .file ∧ type ≠ .dir) then Eff.fail .invalidArgument
  else do
    let shortName ← Eff.read fun _ => fatMakeShortName name
    match ← Eff.attempt (fatLookupVn sb dir name) with
    | .ok _ => Eff.fail .alreadyExists
    | .error e =>
      if e ≠ .notFound then Eff.fail e
      else do
        let slot ← fatFindFreeSlot sb dir
        fatCreateAt sb dir shortName type slot.1 slot.2

def isDotName (name : List UInt8) : Bool := name = [0x2E] || name = [0x2E, 0x2E]

/-- `fat_empty_cb`: the context is `nonempty`. -/
def fatEmptyCb : DirCallback Bool := fun _ name _ _ nonempty =>
  if isDotName name then (false, nonempty) else (true, true)

def fatUnlinkVn (sb : FatSuper) (dir : FatNode) (name : List UInt8) : FatM Unit :=
  if dir.isDir = false then Eff.fail .invalidArgument
  else do
    let node ← fatLookupVn sb dir name
    (if node.isDir then do
      let nonempty ← fatIterDir sb fatEmptyCb node false
      if nonempty then Eff.fail .directoryNotEmpty else pure ()
    else pure ())
    toDisk fun d => do
      let buf ← fatReadSector sb d node.dirSector
      fatWriteSector sb d node.dirSector (Function.update buf node.dirOffset 0xE5)
    if node.firstCluster ≠ 0 then fatFreeChain sb node.firstCluster else pure ()

def fatRootNode (sb : FatSuper) : FatNode :=
  if sb.type = .fat32 then
    { firstCluster := sb.rootCluster, size := 0, attr := 0x10, dirSector := 0, dirOffset := 0,
      hasDirent := false }
  else
    { firstCluster := 0, size := sb.rootEntries * 32, attr := 0x10, dirSector := 0,
      dirOffset := 0, hasDirent := false }

end CfKernel.Fat
