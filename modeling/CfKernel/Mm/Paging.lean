import CfKernel.Mm.Heap
import CfKernel.Mm.PageTables

/-!
# Paging

`paging.c`. The kernel reaches directories and tables at their physical addresses, below the end of
the identity map. New address spaces start with the entries of the kernel's directory, so they
share its tables. One page of the address space, the temporary slot, is mapped to a frame for as
long as the kernel works on the frame; an access to it goes through the directory in use.
-/

namespace CfKernel.Mm

open Lib

/-- `TEMP_MAP_VADDR`. -/
def tempMapVaddr : Nat := 0xFEE00000

def getKernelPd : MachineM Nat := Eff.read fun s => .ok s.kernelPd

/-- The directory of the current process, or `kernel_pd` if there is none. -/
def getActivePd : MachineM Nat := Eff.read fun s => .ok s.activePd

def pdSlot (pd virt : Nat) : Nat := pd + 4 * (virt >>> 22 &&& 0x3FF)

def ptSlot (pt virt : Nat) : Nat := pt + 4 * (virt >>> 12 &&& 0x3FF)

def newPde (ptPhys flags : Nat) : Nat :=
  ptPhys ||| (pagePresent ||| pageRw ||| if flags &&& pageUser ≠ 0 then pageUser else 0)

/-- The flags that go into a table entry are the low five. -/
def newPte (phys flags : Nat) : Nat := (phys &&& (2 ^ 32 - 4096)) ||| (flags &&& 0x1F)

def markUser (pd virt flags pde : Nat) : MachineM Unit :=
  if flags &&& pageUser ≠ 0 then write32 (pdSlot pd virt) (pde ||| pageUser) else pure ()

/-- The table that a present entry points to. -/
def oldTable (pd virt flags pde : Nat) : MachineM (Option Nat) := do
  markUser pd virt flags pde
  pure (some (pde &&& (2 ^ 32 - 4096)))

def newTable (pd virt flags : Nat) : MachineM (Option Nat) := do
  let ptPhys ← pmmAllocFrame
  if ptPhys = 0 then pure none
  else do
    memset ptPhys 0 4096
    write32 (pdSlot pd virt) (newPde ptPhys flags)
    pure (some ptPhys)

def tableFor (pd virt flags : Nat) : MachineM (Option Nat) := do
  let pde ← read32 (pdSlot pd virt)
  if pde &&& pagePresent = 0 then newTable pd virt flags else oldTable pd virt flags pde

def pagingMapPage (pd virt phys flags : Nat) : MachineM Bool :=
  if pd = 0 ∨ virt &&& 4095 ≠ 0 ∨ phys &&& 4095 ≠ 0 then pure false
  else do
    let pt ← tableFor pd virt flags
    match pt with
    | none => pure false
    | some pt => do
      write32 (ptSlot pt virt) (newPte phys flags)
      pure true

/-- The slot in a directory which need not take part. -/
def mapSlotIf (takesPart : Bool) (pd phys flags : Nat) : MachineM Bool :=
  if takesPart then pagingMapPage pd tempMapVaddr phys flags else pure true

def unmapSlotIf (takesPart : Bool) (pd : Nat) : MachineM Unit := do
  let _ ← mapSlotIf takesPart pd 0 0

/-- The last step of `paging_temp_map_frame`: the slot in the directory `pd`. -/
def mapSlotHere (kernelPd activePd pd phys : Nat) : MachineM Nat := do
  let mapped ← mapSlotIf (pd ≠ 0 ∧ pd ≠ kernelPd) pd phys (pagePresent ||| pageRw)
  if mapped then pure tempMapVaddr
  else do
    unmapSlotIf true kernelPd
    unmapSlotIf (activePd ≠ kernelPd ∧ activePd ≠ pd) activePd
    pure 0

/-- The slot in the directory in use, where that is a third one. -/
def mapSlotActive (kernelPd activePd pd phys : Nat) : MachineM Nat := do
  let mapped ← mapSlotIf (activePd ≠ kernelPd ∧ activePd ≠ pd) activePd phys
    (pagePresent ||| pageRw)
  if mapped then mapSlotHere kernelPd activePd pd phys
  else do
    unmapSlotIf true kernelPd
    pure 0

/-- The address of the slot, or `NULL`. -/
def pagingTempMapFrame (pd phys : Nat) : MachineM Nat := do
  let kernelPd ← getKernelPd
  let activePd ← getActivePd
  let mapped ← mapSlotIf true kernelPd phys (pagePresent ||| pageRw)
  if mapped then mapSlotActive kernelPd activePd pd phys else pure 0

def pagingTempUnmapFrame (pd : Nat) : MachineM Unit := do
  let kernelPd ← getKernelPd
  let activePd ← getActivePd
  unmapSlotIf true kernelPd
  unmapSlotIf (activePd ≠ kernelPd ∧ activePd ≠ pd) activePd
  unmapSlotIf (pd ≠ 0 ∧ pd ≠ kernelPd) pd

/-- The frame that the directory in use has in the slot. -/
def slotFrame (s : Machine) : Option Nat :=
  if pdeAt s.mem s.activePd tempMapVaddr &&& pagePresent ≠ 0 ∧
      pteAt s.mem s.activePd tempMapVaddr &&& pagePresent ≠ 0 then
    some (translate s.mem s.activePd tempMapVaddr)
  else none

/-- `memset` and `memcpy` to the slot, inside one page. -/
def slotWrite (offset length : Nat) (src : Bytes) : MachineM Unit := fun s =>
  match slotFrame s with
  | none => (.error .pageFault, s)
  | some frame => (.ok (), { s with mem := splice s.mem (frame + offset) length src })

def copyEntry (kernelPd pd i : Nat) : MachineM Unit := do
  let entry ← read32 (kernelPd + 4 * i)
  if entry &&& pagePresent ≠ 0 then write32 (pd + 4 * i) entry else pure ()

/-- The loop of `paging_create_address_space` with `n` entries to go, from entry `i` on. -/
def copyEntries (kernelPd pd : Nat) : Nat → Nat → MachineM Unit
  | 0, _ => pure ()
  | n + 1, i => do
    copyEntry kernelPd pd i
    copyEntries kernelPd pd n (i + 1)

/-- The entries of one table of the identity map, from entry `i` of the table of pages from
`basePage` on. -/
def identityEntries (pt basePage numPages : Nat) : Nat → Nat → MachineM Unit
  | 0, _ => pure ()
  | n + 1, i =>
    if numPages ≤ basePage + i then pure ()
    else do
      write32 (pt + 4 * i) (u32 ((basePage + i) * 4096) ||| pagePresent ||| pageRw)
      identityEntries pt basePage numPages n (i + 1)

def identityTables (pd numPages : Nat) : Nat → Nat → MachineM Unit
  | 0, _ => pure ()
  | n + 1, pdIndex => do
    let ptPhys ← pmmAllocFrame
    if ptPhys = 0 then pure ()
    else do
      memset ptPhys 0 4096
      identityEntries ptPhys (pdIndex * 1024) numPages 1024 0
      write32 (pd + 4 * pdIndex) (ptPhys ||| pagePresent ||| pageRw)
      identityTables pd numPages n (pdIndex + 1)

def identityMapRange (pd mapBytes : Nat) : MachineM Unit :=
  let numPages := (mapBytes + 4095) / 4096
  identityTables pd numPages ((numPages + 1023) / 1024) 0

/-- `n` pages from `addr` on at their own addresses; the results are not looked at. -/
def mapDevicePages (pd : Nat) : Nat → Nat → MachineM Unit
  | 0, _ => pure ()
  | n + 1, addr => do
    let _ ← pagingMapPage pd addr addr (pagePresent ||| pageRw)
    mapDevicePages pd n (addr + 4096)

def setKernelPd (pd : Nat) : MachineM Unit :=
  Eff.modify fun s => { s with kernelPd := pd, activePd := pd }

/-- With paging on, the kernel reaches what the identity map covers. -/
def enablePaging : MachineM Unit := Eff.modify fun s => { s with direct := 16 * 1024 * 1024 }

def pagingInit : MachineM Unit := do
  let pd ← pmmAllocFrame
  setKernelPd pd
  memset pd 0 4096
  identityMapRange pd (16 * 1024 * 1024)
  mapDevicePages pd 0x100 0xF0000000
  mapDevicePages pd 0x400 0xFD000000
  enablePaging

end CfKernel.Mm
