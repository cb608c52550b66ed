import CfKernel.Fat.ChainSpec

/-!
# Files

`fat_update_dirent`, `fat_read_vn`, `fat_truncate_vn` and `fat_write_vn`. They act on the node of
the calling vnode. A loop that the source leaves with `break` returns its error together with the
progress made, since the code after the loop still runs.
-/

namespace CfKernel.Fat

open Lib

/-- Cluster and size fields of the entry at `off`. -/
def putDirentFields (buf : Bytes) (off cluster size : Nat) : Bytes :=
  putLe32 (putLe16 (putLe16 buf (off + 20) (cluster >>> 16)) (off + 26) cluster) (off + 28) size

def fatUpdateDirent (sb : FatSuper) : FatM Unit := do
  let node ← getNode
  if node.hasDirent = false then pure ()
  else if node.dirOffset + 32 > sb.bytesPerSector then Eff.fail .ioError
  else
    toDisk fun d => do
      let sector ← fatReadSector sb d node.dirSector
      fatWriteSector sb d node.dirSector
        (putDirentFields sector node.dirOffset node.firstCluster node.size)

/-- The walk of `fat_read_vn` to the first cluster it reads. -/
def fatSkip (sb : FatSuper) (d : Disk) : Nat → Nat → Except Errno Nat
  | 0, cluster => .ok cluster
  | n + 1, cluster => do
    let next ← fatNextCluster sb d cluster
    if next = 0 then .error .ioError else fatSkip sb d n next

structure ReadProgress where
  result : Except Errno Unit
  done : Nat
  dst : Bytes

def fatReadLoop (sb : FatSuper) (d : Disk) (len : Nat) :
    Nat → Nat → Nat → Nat → Bytes → ReadProgress
  | 0, _, _, done, dst => ⟨.ok (), done, dst⟩
  | n + 1, cluster, clusterOff, done, dst =>
    if done < len then
      match fatReadCluster sb d cluster with
      | .error e => ⟨.error e, done, dst⟩
      | .ok buf =>
        let toCopy := min (sb.clusterSize - clusterOff) (len - done)
        let dst := splice dst done toCopy (window buf clusterOff)
        let done := done + toCopy
        if done < len then
          match fatNextCluster sb d cluster with
          | .error e => ⟨.error e, done, dst⟩
          | .ok next =>
            if next = 0 then ⟨.error .ioError, done, dst⟩
            else fatReadLoop sb d len n next 0 done dst
        else ⟨.ok (), done, dst⟩
    else ⟨.ok (), done, dst⟩

def fatReadChunks (sb : FatSuper) (d : Disk) (node : FatNode) (off len : Nat) (dst : Bytes) :
    ReadProgress :=
  if node.firstCluster = 0 ∧ node.size ≠ 0 then ⟨.error .ioError, 0, dst⟩
  else
    match fatSkip sb d (off / sb.clusterSize) node.firstCluster with
    | .error e => ⟨.error e, 0, dst⟩
    | .ok cluster =>
      fatReadLoop sb d len (sb.clusterCount + 1) cluster (off % sb.clusterSize) 0 dst

def fatReadVn (sb : FatSuper) (off len : Nat) : FatM Unit := do
  let node ← getNode
  if node.isDir then Eff.fail .invalidArgument
  else if node.size ≤ off ∨ len = 0 then Eff.modify fun s => { s with out := 0 }
  else do
    let len := if node.size - off < len then node.size - off else len
    malloc
    let p ← Eff.read fun s => .ok (fatReadChunks sb s.disk node off len s.dst)
    Eff.modify fun s => { s with out := p.done, dst := p.dst }
    match p.result with
    | .error e => Eff.fail e
    | .ok _ => if p.done ≠ len then Eff.fail .ioError else pure ()

/-- `keep_count` of `fat_truncate_vn`, computed in `u32`. -/
def fatKeepCount (sb : FatSuper) (newSize : Nat) : Nat :=
  if newSize ≠ 0 then u32 (newSize + sb.clusterSize - 1) / sb.clusterSize else 0

def fatShrink (sb : FatSuper) (newSize : Nat) : FatM Unit := do
  let node ← getNode
  let keepCount := fatKeepCount sb newSize
  if keepCount = 0 then do
    fatFreeChain sb node.firstCluster
    modifyNode fun node => { node with firstCluster := 0 }
  else do
    let last ← fatEnsureCluster sb (keepCount - 1)
    let tail ← onDisk fun d => fatNextCluster sb d last
    toDisk fun d => sb.setFatEntry d last (fatEocMarker sb)
    fatFreeChain sb tail

/-- One turn of the zeroing loop; returns the new cursor. -/
def fatZeroStep (sb : FatSuper) (newSize cursor : Nat) : FatM Nat := do
  let cluster ← fatEnsureCluster sb (cursor / sb.clusterSize)
  let clusterOffset := cursor % sb.clusterSize
  let amount := min (sb.clusterSize - clusterOffset) (newSize - cursor)
  (if clusterOffset = 0 ∧ amount = sb.clusterSize then
    toDisk fun d => fatWriteCluster sb d cluster fun _ => 0
  else do
    malloc
    toDisk fun d => do
      let data ← fatReadCluster sb d cluster
      fatWriteCluster sb d cluster (splice data clusterOffset amount fun _ => 0))
  pure (cursor + amount)

def fatZeroLoop (sb : FatSuper) (newSize : Nat) : Nat → Nat → FatM Unit
  | 0, _ => pure ()
  | n + 1, cursor =>
    if cursor < newSize then do
      let cursor ← fatZeroStep sb newSize cursor
      fatZeroLoop sb newSize n cursor
    else pure ()

/-- Each turn of the zeroing loop advances by at least one byte, so `newSize - oldSize` turns
are enough. -/
def fatGrow (sb : FatSuper) (newSize : Nat) : FatM Unit := do
  let node ← getNode
  let _ ← fatEnsureCluster sb ((newSize - 1) / sb.clusterSize)
  malloc
  fatZeroLoop sb newSize (newSize - node.size) node.size

def fatTruncateVn (sb : FatSuper) (newSize : Nat) : FatM Unit := do
  let node ← getNode
  if node.isDir = true ∨ newSize > 0xFFFFFFFF then Eff.fail .invalidArgument
  else do
    (if newSize < node.size then fatShrink sb newSize
    else if newSize > node.size then fatGrow sb newSize
    else pure ())
    modifyNode fun node => { node with size := newSize }
    fatUpdateDirent sb

/-- One turn of the loop of `fat_write_vn`; returns the new `done`. -/
def fatWriteStep (sb : FatSuper) (buf : Bytes) (off len done : Nat) : FatM Nat := do
  let fileOffset := off + done
  let cluster ← fatEnsureCluster sb (fileOffset / sb.clusterSize)
  let clusterOffset := fileOffset % sb.clusterSize
  let amount := min (sb.clusterSize - clusterOffset) (len - done)
  toDisk fun d => do
    let data ← fatReadCluster sb d cluster
    fatWriteCluster sb d cluster (splice data clusterOffset amount (window buf done))
  pure (done + amount)

def fatWriteLoop (sb : FatSuper) (buf : Bytes) (off len : Nat) :
    Nat → Nat → FatM (Except Errno Unit × Nat)
  | 0, done => pure (.ok (), done)
  | n + 1, done =>
    if done < len then do
      match ← Eff.attempt (fatWriteStep sb buf off len done) with
      | .ok done => fatWriteLoop sb buf off len n done
      | .error e => pure (.error e, done)
    else pure (.ok (), done)

/-- The source's `return result != ERR_SUCCESS ? result : metadata_result`. -/
def firstError (result metadataResult : Except Errno Unit) : Except Errno Unit :=
  match result with
  | .error e => .error e
  | .ok _ => metadataResult

/-- `fat_write_vn` once the file reaches past the end of the write. -/
def fatWriteData (sb : FatSuper) (buf : Bytes) (off len : Nat) : FatM Unit := do
  malloc
  let (result, done) ← fatWriteLoop sb buf off len len 0
  modifyNode fun node => if node.size < off + done then { node with size := off + done } else node
  let metadataResult ← Eff.attempt (fatUpdateDirent sb)
  Eff.modify fun s => { s with out := done }
  Eff.read fun _ => firstError result metadataResult

def fatWriteVn (sb : FatSuper) (buf : Bytes) (off len : Nat) : FatM Unit := do
  let node ← getNode
  if node.isDir then Eff.fail .invalidArgument
  else do
    Eff.modify fun s => { s with out := 0 }
    if len = 0 then pure ()
    else if off > 0xFFFFFFFF ∨ len > 0xFFFFFFFF - off then Eff.fail .noSpaceLeft
    else do
      (if off + len > node.size then fatTruncateVn sb (off + len) else pure ())
      fatWriteData sb buf off len

end CfKernel.Fat
