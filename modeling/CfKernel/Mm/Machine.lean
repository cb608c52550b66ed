import CfKernel.Lib.Effect
import CfKernel.Mm.Pmm

/-!
# Memory as the kernel sees it

Physical memory, the frame allocator, the variables of the heap and the page directories that are
in use. The kernel reaches physical memory through addresses that are equal to the physical ones:
all of them while paging is off, and those below the end of the identity map afterwards. That end
is `direct`. An access above it is a page fault, after which the kernel does not go on.
-/

namespace CfKernel.Mm

open Lib

inductive Stop where
  | pageFault
  /-- A loop along a list that does not end. -/
  | endless
  deriving DecidableEq

/-- The variables of `heap.c`. -/
structure HeapVars where
  base : Nat
  startAddr : Nat
  endAddr : Nat
  maxAddr : Nat
  deriving DecidableEq

structure Machine where
  mem : Bytes
  direct : Nat
  pmm : Pmm
  heap : HeapVars
  kernelPd : Nat
  /-- The directory of the running process. -/
  activePd : Nat

abbrev MachineM := Eff Stop Machine

def guarded {α : Type} (a n : Nat) (k : MachineM α) : MachineM α := fun s =>
  if a + n ≤ s.direct then k s else (.error .pageFault, s)

def read32 (a : Nat) : MachineM Nat := guarded a 4 (Eff.read fun s => .ok (le32 s.mem a))

def setMem (f : Bytes → Bytes) : MachineM Unit := Eff.modify fun s => { s with mem := f s.mem }

def write32 (a v : Nat) : MachineM Unit := guarded a 4 (setMem fun m => putLe32 m a v)

def write8 (a : Nat) (v : UInt8) : MachineM Unit :=
  guarded a 1 (setMem fun m => Function.update m a v)

def memset (a : Nat) (v : UInt8) (n : Nat) : MachineM Unit :=
  guarded a n (setMem fun m => splice m a n fun _ => v)

def memcpy (dst src n : Nat) : MachineM Unit :=
  guarded src n (guarded dst n (setMem fun m => splice m dst n (window m src)))

def pmmAllocFrame : MachineM Nat := fun s =>
  (.ok s.pmm.allocFrame.1, { s with pmm := s.pmm.allocFrame.2 })

def pmmFreeFrame (paddr : Nat) : MachineM (Except Errno Unit) := fun s =>
  (.ok (s.pmm.freeFrame paddr).1, { s with pmm := (s.pmm.freeFrame paddr).2 })

def pmmReserveRegion (paddrStart paddrEnd : Nat) : MachineM (Except Errno Unit) := fun s =>
  (.ok (s.pmm.reserveRegion paddrStart paddrEnd).1,
    { s with pmm := (s.pmm.reserveRegion paddrStart paddrEnd).2 })

variable {s : Machine} {a b n v : Nat} {α : Type}

theorem guarded_run {k : MachineM α} (h : a + n ≤ s.direct) : guarded a n k s = k s :=
  if_pos h

theorem guarded_fault {k : MachineM α} (h : s.direct < a + n) :
    guarded a n k s = (.error .pageFault, s) :=
  if_neg (not_le.mpr h)

theorem of_guarded_ok {k : MachineM α} {r : α} {t : Machine}
    (h : guarded a n k s = (.ok r, t)) : a + n ≤ s.direct ∧ k s = (.ok r, t) := by
  by_cases hreach : a + n ≤ s.direct
  · exact ⟨hreach, (guarded_run hreach).symm.trans h⟩
  · rw [guarded_fault (not_le.mp hreach)] at h
    cases h

theorem read32_run (h : a + 4 ≤ s.direct) : read32 a s = (.ok (le32 s.mem a), s) := guarded_run h

theorem write32_run (h : a + 4 ≤ s.direct) :
    write32 a v s = (.ok (), { s with mem := putLe32 s.mem a v }) :=
  guarded_run h

theorem write8_run {v : UInt8} (h : a + 1 ≤ s.direct) :
    write8 a v s = (.ok (), { s with mem := Function.update s.mem a v }) :=
  guarded_run h

theorem memset_run {v : UInt8} (h : a + n ≤ s.direct) :
    memset a v n s = (.ok (), { s with mem := splice s.mem a n fun _ => v }) :=
  guarded_run h

theorem memcpy_run (ha : a + n ≤ s.direct) (hb : b + n ≤ s.direct) :
    memcpy a b n s = (.ok (), { s with mem := splice s.mem a n (window s.mem b) }) := by
  rw [memcpy, guarded_run hb, guarded_run ha]
  rfl

end CfKernel.Mm
