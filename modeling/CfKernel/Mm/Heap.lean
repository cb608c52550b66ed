import CfKernel.Mm.Machine

/-!
# The kernel heap

`heap.c`: a list of chunks in address order, each a header of 16 bytes (`size`, `free`, `prev`,
`next`) and the payload behind it. `malloc` takes the first free chunk that is large enough, whole,
or adds pages at the end of the heap; `free` joins a chunk with its neighbours when they are free.
The heap has no page directory of its own, as in `kmain`, so a new page is the frame at the same
address. The walks along the list stop with `endless` after more turns than there is room for
chunks.
-/

namespace CfKernel.Mm

open Lib

/-- `HEAP_START` and `HEAP_MAX` of `kernel.c`. -/
def heapStart : Nat := 0x00800000

def heapMax : Nat := 0x02000000

def heapVars : MachineM HeapVars := Eff.read fun s => .ok s.heap

theorem heapVars_run (s : Machine) : heapVars s = (.ok s.heap, s) := rfl

def setHeap (f : HeapVars → HeapVars) : MachineM Unit :=
  Eff.modify fun s => { s with heap := f s.heap }

def heapInit (start max : Nat) (s : Machine) : Machine :=
  { s with heap := ⟨0, start, start, max⟩ }

def expandHeapByPages : Nat → MachineM (Except Errno Unit)
  | 0 => pure (.ok ())
  | pages + 1 => do
    let h ← heapVars
    if h.maxAddr < u32 (h.endAddr + 4096) then pure (.error .heapExhausted)
    else do
      let _ ← pmmReserveRegion h.endAddr (u32 (h.endAddr + 4096))
      memset h.endAddr 0 4096
      setHeap fun h => { h with endAddr := u32 (h.endAddr + 4096) }
      expandHeapByPages pages

def chunkSize (c : Nat) : MachineM Nat := read32 c

def chunkFree (c : Nat) : MachineM Nat := read32 (c + 4)

def chunkPrev (c : Nat) : MachineM Nat := read32 (c + 8)

def chunkNext (c : Nat) : MachineM Nat := read32 (c + 12)

def setChunkSize (c v : Nat) : MachineM Unit := write32 c v

def setChunkFree (c v : Nat) : MachineM Unit := write32 (c + 4) v

def setChunkPrev (c v : Nat) : MachineM Unit := write32 (c + 8) v

def setChunkNext (c v : Nat) : MachineM Unit := write32 (c + 12) v

def findFreeChunkFrom (size : Nat) : Nat → Nat → MachineM Nat
  | 0, _ => Eff.fail .endless
  | turns + 1, cur =>
    if cur = 0 then pure 0
    else do
      let free ← chunkFree cur
      let curSize ← chunkSize cur
      if free ≠ 0 ∧ size ≤ curSize then pure cur
      else do
        let next ← chunkNext cur
        findFreeChunkFrom size turns next

def findFreeChunk (size : Nat) : MachineM Nat := do
  let h ← heapVars
  findFreeChunkFrom size (h.endAddr + 1) h.base

def lastChunkFrom : Nat → Nat → MachineM Nat
  | 0, _ => Eff.fail .endless
  | turns + 1, cur => do
    let next ← chunkNext cur
    if next = 0 then pure cur else lastChunkFrom turns next

/-- The end of `request_space`: the new chunk is linked behind the last one. -/
def appendChunk (chunk : Nat) : MachineM Unit := do
  let h ← heapVars
  if h.base = 0 then setHeap fun h => { h with base := chunk }
  else do
    let last ← lastChunkFrom (h.endAddr + 1) h.base
    setChunkNext last chunk
    setChunkPrev chunk last

/-- The header of the new chunk at the end of the heap, and its place in the list. -/
def placeChunk (chunk size : Nat) : MachineM Unit := do
  setChunkSize chunk size
  setChunkFree chunk 0
  setChunkPrev chunk 0
  setChunkNext chunk 0
  appendChunk chunk

def neededPages (size : Nat) : Nat := u32 (u32 (size + 16) + 4095) / 4096

def requestSpace (size : Nat) : MachineM Nat := do
  match ← expandHeapByPages (neededPages size) with
  | .error _ => pure 0
  | .ok _ => do
    let h ← heapVars
    let chunk := usub h.endAddr (u32 (neededPages size * 4096))
    placeChunk chunk size
    pure chunk

def malloc (size : Nat) : MachineM Nat :=
  if size = 0 then pure 0
  else do
    let chunk ← findFreeChunk size
    if chunk ≠ 0 then do
      setChunkFree chunk 0
      pure (u32 (chunk + 16))
    else do
      let chunk ← requestSpace size
      if chunk = 0 then pure 0 else pure (u32 (chunk + 16))

/-- Chunk `b` takes in the chunk `c` behind it. -/
def absorb (b c : Nat) : MachineM Unit := do
  let bSize ← chunkSize b
  let cSize ← chunkSize c
  setChunkSize b (u32 (bSize + (16 + cSize)))
  let next ← chunkNext c
  setChunkNext b next
  if next ≠ 0 then setChunkPrev next b else pure ()

def mergeNext (chunk : Nat) : MachineM Unit := do
  let next ← chunkNext chunk
  if next = 0 then pure ()
  else do
    let nextFree ← chunkFree next
    if nextFree ≠ 0 then absorb chunk next else pure ()

def mergePrev (chunk : Nat) : MachineM Unit := do
  let prev ← chunkPrev chunk
  if prev = 0 then pure ()
  else do
    let prevFree ← chunkFree prev
    if prevFree ≠ 0 then absorb prev chunk else pure ()

def free (ptr : Nat) : MachineM Unit :=
  if ptr = 0 then pure ()
  else do
    let chunk := usub ptr 16
    setChunkFree chunk 1
    mergeNext chunk
    mergePrev chunk

def calloc (nmemb size : Nat) : MachineM Nat :=
  if nmemb = 0 ∨ size = 0 then pure 0
  else if (2 ^ 32 - 1) / size < nmemb then pure 0
  else do
    let total := u32 (nmemb * size)
    let p ← malloc total
    if p = 0 then pure 0
    else do
      memset p 0 total
      pure p

def realloc (ptr newSize : Nat) : MachineM Nat :=
  if ptr = 0 then malloc newSize
  else if newSize = 0 then do
    free ptr
    pure 0
  else do
    let oldSize ← chunkSize (usub ptr 16)
    if newSize ≤ oldSize then pure ptr
    else do
      let newPtr ← malloc newSize
      if newPtr = 0 then pure 0
      else do
        memcpy newPtr ptr oldSize
        free ptr
        pure newPtr

end CfKernel.Mm
