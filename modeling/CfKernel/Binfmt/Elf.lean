import CfKernel.Mm.Paging

/-!
# The ELF loader

`elf.c` has its loader twice, for a file and for an image in memory; the two differ in how they
read. A read has an offset and a size, and gives the bytes or fails. The buffers that the loader
allocates for itself are values here, and their allocation is a call of the heap; a successful load
of a segment returns the pages it has mapped and the places it has copied file bytes to, which the
code keeps in such a buffer until it returns.
-/

namespace CfKernel.Binfmt

open Lib Lib.Eff Mm

/-- The fields of `Elf32_Ehdr` that the loader reads; `ident` are the first bytes of `e_ident`. -/
structure Ehdr where
  ident : List UInt8
  type : Nat
  machine : Nat
  entry : Nat
  phoff : Nat
  phentsize : Nat
  phnum : Nat
  deriving DecidableEq

structure Phdr where
  type : Nat
  offset : Nat
  vaddr : Nat
  filesz : Nat
  memsz : Nat
  deriving DecidableEq

def ehdrOf (b : Bytes) : Ehdr where
  ident := (List.range 6).map b
  type := le16 b 16
  machine := le16 b 18
  entry := le32 b 24
  phoff := le32 b 28
  phentsize := le16 b 42
  phnum := le16 b 44

def phdrOf (b : Bytes) (i : Nat) : Phdr where
  type := le32 b (32 * i)
  offset := le32 b (32 * i + 4)
  vaddr := le32 b (32 * i + 8)
  filesz := le32 b (32 * i + 16)
  memsz := le32 b (32 * i + 20)

/-- The magic number, `ELFCLASS32`, `ELFDATA2LSB`, `ET_EXEC` and `EM_386`. -/
def elf32Validate (eh : Ehdr) : Bool :=
  eh.ident == [0x7F, 0x45, 0x4C, 0x46, 1, 1] && eh.type == 2 && eh.machine == 3

/-! ## Reading -/

/-- What a vnode's read operation does: an error, or the bytes at an offset, as many as there are
but not more than asked for. -/
structure Vnode where
  read : Nat → Nat → Except Errno (List UInt8)

/-- `vfs_read` on an open file with this offset. -/
def vfsRead (vn : Vnode) (offset len : Nat) : Except Errno (List UInt8) :=
  match vn.read offset len with
  | .error e => .error e
  | .ok bytes =>
    if len < bytes.length then .error .ioError
    else if 0xFFFFFFFF - offset < bytes.length then .error .invalidArgument
    else .ok bytes

/-- The loop of `read_fully`, which gets one byte at least in each turn. -/
def readLoop (vn : Vnode) (offset size : Nat) : Nat → List UInt8 → Option (List UInt8)
  | 0, got => if got.length < size then none else some got
  | n + 1, got =>
    if got.length < size then
      match vfsRead vn (offset + got.length) (size - got.length) with
      | .error _ => none
      | .ok bytes => if bytes = [] then none else readLoop vn offset size n (got ++ bytes)
    else some got

def bytesOf (l : List UInt8) : Bytes := fun i => l.getD i 0

/-- `read_fully`: the open file is a block of 24 bytes. -/
def readFully (vn : Vnode) (offset size : Nat) : MachineM (Option Bytes) := do
  let f ← calloc 1 24
  if f = 0 then pure none
  else do
    free f
    pure ((readLoop vn offset size size []).map bytesOf)

/-- `read_from_memory`. The image is memory seen from its address on, so an index past its size is
a byte behind it, and one that wraps a byte in front. -/
def readFromMemory (image : Bytes) (imageSize offset size : Nat) : MachineM (Option Bytes) :=
  if imageSize < u32 (offset + size) then pure none
  else pure (some fun i => image (u32 (offset + i)))

/-! ## Segments -/

structure SegPage where
  vaddr : Nat
  phys : Nat
  deriving DecidableEq

/-- Bytes of a frame that file bytes were copied to. -/
structure Placed where
  phys : Nat
  offset : Nat
  length : Nat
  deriving DecidableEq

def pageStart (ph : Phdr) : Nat := alignDown ph.vaddr 4096

def pageEnd (ph : Phdr) : Nat := alignUp (u32 (ph.vaddr + ph.memsz)) 4096

def pageCount (ph : Phdr) : Nat := usub (pageEnd ph) (pageStart ph) / 4096

/-- What follows an allocation, or a temporary mapping, unless it returned `NULL`. -/
def bindNonNull {α : Type} (m : MachineM Nat) (f : Nat → MachineM (Option α)) :
    MachineM (Option α) := do
  let p ← m
  if p = 0 then pure none else f p

/-- The value of a call after which a block is freed. -/
def thenFree {α : Type} (m : MachineM (Option α)) (block : Nat) : MachineM (Option α) := do
  let r ← m
  free block
  pure r

def withFrame {α : Type} (pd phys offset length : Nat) (src : Bytes) (a : α) :
    MachineM (Option α) :=
  bindNonNull (pagingTempMapFrame pd phys) fun _ => do
    slotWrite offset length src
    pagingTempUnmapFrame pd
    pure (some a)

/-- Every page is mapped writable, whatever the flags of the segment say. -/
def userFlags : Nat := pagePresent ||| pageUser ||| pageRw

def mapZeroed (pd addr phys : Nat) : MachineM (Option SegPage) := do
  let mapped ← pagingMapPage pd addr phys userFlags
  if mapped then withFrame pd phys 0 4096 (fun _ => 0) ⟨addr, phys⟩ else pure none

/-- One turn of the loop that maps the pages of a segment. -/
def mapSegmentPage (pd addr : Nat) : MachineM (Option SegPage) :=
  bindNonNull pmmAllocFrame (mapZeroed pd addr)

/-- `for (addr = page_start; addr < page_end; addr += page_size, i++)`. -/
def mapSegmentPages (pd pageEnd : Nat) : Nat → Nat → MachineM (Option (List SegPage))
  | 0, _ => Eff.fail .endless
  | n + 1, addr =>
    if addr < pageEnd then
      bindSome (mapSegmentPage pd addr) fun page =>
      bindSome (mapSegmentPages pd pageEnd n (u32 (addr + 4096))) fun rest =>
      pure (some (page :: rest))
    else pure (some [])

/-- One turn of the loop that copies; `pageOff` is 0 for a page other than the first. -/
def copyToPage (pd phys : Nat) (data : Bytes) (pageOff filesz copied : Nat) :
    MachineM (Option Placed) :=
  let space := 4096 - pageOff
  let remain := filesz - copied
  let chunk := if remain < space then remain else space
  withFrame pd phys pageOff chunk (window data copied) ⟨phys, pageOff, chunk⟩

/-- The turns of the copying loop from page `p` on; the array has zeroes where no page is. -/
def copySegment (pd : Nat) (pages : List SegPage) (data : Bytes) (pageOff filesz : Nat) :
    Nat → Nat → Nat → MachineM (Option (List Placed))
  | 0, _, _ => pure (some [])
  | n + 1, p, copied =>
    if copied < filesz then
      bindSome (copyToPage pd (pages.getD p ⟨0, 0⟩).phys data (if p = 0 then pageOff else 0)
        filesz copied) fun placed =>
      bindSome (copySegment pd pages data pageOff filesz n (p + 1) (copied + placed.length))
        fun rest =>
      pure (some (placed :: rest))
    else pure (some [])

section Loader

variable (read : Nat → Nat → MachineM (Option Bytes)) (pd : Nat)

/-- The part of `load_segment` that works with `seg_data`. -/
def fillFromFile (ph : Phdr) (pages : List SegPage) : MachineM (Option (List Placed)) :=
  bindNonNull (malloc ph.filesz) <| thenFree <|
    bindSome (read ph.offset ph.filesz) fun data =>
    copySegment pd pages data (ph.vaddr &&& 4095) ph.filesz (pageCount ph) 0 0

def fillSegment (ph : Phdr) (pages : List SegPage) : MachineM (Option (List Placed)) :=
  if 0 < ph.filesz then fillFromFile read pd ph pages else pure (some [])

/-- A 32-bit space has `2 ^ 20` pages, so more turns would go around. -/
def pageTurns : Nat := 2 ^ 20 + 1

def mapAndFill (ph : Phdr) : MachineM (Option (List SegPage × List Placed)) :=
  bindSome (mapSegmentPages pd (pageEnd ph) pageTurns (pageStart ph)) fun pages =>
  bindSome (fillSegment read pd ph pages) fun placed =>
  pure (some (pages, placed))

/-- `load_segment` and `load_segment_from_memory`; `none` is the result -1. -/
def loadSegment (ph : Phdr) : MachineM (Option (List SegPage × List Placed)) :=
  if ph.memsz = 0 then pure (some ([], []))
  else if ph.memsz < ph.filesz then pure none
  else bindNonNull (calloc (pageCount ph) 8) (thenFree (mapAndFill read pd ph))

/-! ## Images -/

def ptLoad : Nat := 1

/-- The loop over the program headers from header `i` on. -/
def loadSegments (phdrs : Bytes) : Nat → Nat → MachineM (Option Unit)
  | 0, _ => pure (some ())
  | n + 1, i =>
    if (phdrOf phdrs i).type ≠ ptLoad then loadSegments phdrs n (i + 1)
    else
      bindSome (loadSegment read pd (phdrOf phdrs i)) fun _ =>
      loadSegments phdrs n (i + 1)

/-- From the allocation of the program headers on; the value is `*entry_out`. -/
def loadProgram (eh : Ehdr) : MachineM (Option Nat) :=
  bindNonNull (calloc 1 (eh.phentsize * eh.phnum)) <| thenFree <|
    bindSome (read eh.phoff (eh.phentsize * eh.phnum)) fun phdrs =>
    bindSome (loadSegments read pd phdrs eh.phnum 0) fun _ =>
    pure (some eh.entry)

def headerOk (eh : Ehdr) : Bool :=
  elf32Validate eh && eh.phentsize == 32 && eh.phnum != 0

end Loader

def loadSegmentVnode (vn : Vnode) (pd : Nat) (ph : Phdr) :
    MachineM (Option (List SegPage × List Placed)) :=
  loadSegment (readFully vn) pd ph

def elf32LoadImage (pd : Nat) (vn : Vnode) : MachineM (Option Nat) :=
  bindSome (readFully vn 0 52) fun header =>
  if headerOk (ehdrOf header) then loadProgram (readFully vn) pd (ehdrOf header) else pure none

/-- The test of `e_phoff` is only in this loader. -/
def loadFromMemory (pd : Nat) (image : Bytes) (imageSize : Nat) (eh : Ehdr) :
    MachineM (Option Nat) :=
  if !headerOk eh then pure none
  else if imageSize < u32 (eh.phoff + eh.phentsize * eh.phnum) then pure none
  else loadProgram (readFromMemory image imageSize) pd eh

def elf32LoadImageFromMemory (pd : Nat) (image : Bytes) (imageSize : Nat) : MachineM (Option Nat) :=
  if imageSize < 52 then pure none
  else
    bindSome (readFromMemory image imageSize 0 52) fun header =>
    loadFromMemory pd image imageSize (ehdrOf header)

end CfKernel.Binfmt
