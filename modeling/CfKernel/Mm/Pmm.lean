import CfKernel.Errno
import CfKernel.Lib.Bitmap
import CfKernel.Lib.Word

/-!
# The physical frame allocator

`pmm.c`: one bit for every frame of physical memory, set while the frame is in use. A frame is
named by its physical address, a multiple of `PMM_FRAME_SIZE`, 4096; the answer `0` of
`pmm_alloc_frame` means that no frame is free. `pmm_init` marks everything up to the end of the bitmap itself.
-/

namespace CfKernel.Mm

open Lib

/-- The allocator's variables. Words behind the bitmap's end are whatever memory holds there. -/
structure Pmm where
  frameBitmap : Bitmap
  totalFramesCount : Nat
  framesUsed : Nat
  total_le : totalFramesCount ≤ 2 ^ 20

namespace Pmm

def setFrame (p : Pmm) (frameAddr : Nat) : Pmm :=
  { p with frameBitmap := p.frameBitmap.set (frameAddr / 4096) }

def clearFrame (p : Pmm) (frameAddr : Nat) : Pmm :=
  { p with frameBitmap := p.frameBitmap.clear (frameAddr / 4096) }

def testFrame (p : Pmm) (frameAddr : Nat) : Bool := p.frameBitmap.test (frameAddr / 4096)

def firstFreeFrame (p : Pmm) : Option Nat := p.frameBitmap.firstClear p.totalFramesCount

/-- `set_frame` and the count. -/
def takeFrame (p : Pmm) (frameAddr : Nat) : Pmm :=
  { p.setFrame frameAddr with framesUsed := p.framesUsed + 1 }

/-- `clear_frame` and the count, which stays at zero. -/
def dropFrame (p : Pmm) (frameAddr : Nat) : Pmm :=
  { p.clearFrame frameAddr with framesUsed := p.framesUsed - 1 }

def allocFrame (p : Pmm) : Nat × Pmm :=
  match p.firstFreeFrame with
  | none => (0, p)
  | some frame => (u32 (frame * 4096), p.takeFrame (u32 (frame * 4096)))

def freeFrame (p : Pmm) (paddr : Nat) : Except Errno Unit × Pmm :=
  if paddr &&& 4095 ≠ 0 then (.error .invalidAlignment, p)
  else if p.testFrame paddr = false then (.error .invalidArgument, p)
  else (.ok (), p.dropFrame paddr)

def reserveFrame (p : Pmm) (a : Nat) : Pmm := if p.testFrame a = false then p.takeFrame a else p

/-- The loop of `pmm_reserve_region`, whose bounds are whole frames. -/
def reserveRegion (p : Pmm) (paddrStart paddrEnd : Nat) : Except Errno Unit × Pmm :=
  if paddrEnd ≤ paddrStart then (.error .invalidArgument, p)
  else
    let first := alignDown paddrStart 4096
    let last := alignUp paddrEnd 4096
    (.ok (), (List.range ((last - first) / 4096)).foldl
      (fun q i => q.reserveFrame (first + i * 4096)) p)

def unreserveFrame (p : Pmm) (a : Nat) : Pmm := if p.testFrame a = true then p.dropFrame a else p

def unreserveRegion (p : Pmm) (paddrStart paddrEnd : Nat) : Except Errno Unit × Pmm :=
  if paddrEnd ≤ paddrStart then (.error .invalidArgument, p)
  else
    let first := alignDown paddrStart 4096
    let last := alignUp paddrEnd 4096
    (.ok (), (List.range ((last - first) / 4096)).foldl
      (fun q i => q.unreserveFrame (first + i * 4096)) p)

def totalFrames (p : Pmm) : Nat := p.totalFramesCount

def usedFrames (p : Pmm) : Nat := p.framesUsed

def freeFrames (p : Pmm) : Nat := u32 (p.totalFramesCount + 2 ^ 32 - p.framesUsed)

theorem frames_le {memSizeBytes : Nat} (h : memSizeBytes < 2 ^ 32) :
    memSizeBytes / 4096 ≤ 2 ^ 20 := by omega

def cleared (old : Pmm) (memSizeBytes : Nat) (h : memSizeBytes < 2 ^ 32) : Pmm where
  frameBitmap i := if i < (memSizeBytes / 4096 + 31) >>> 5 then 0#32 else old.frameBitmap i
  totalFramesCount := memSizeBytes / 4096
  framesUsed := 0
  total_le := frames_le h

/-- `pmm_init`; `old` is what the memory of the bitmap held. -/
def init (old : Pmm) (memSizeBytes kernelEndPaddr : Nat) (h : memSizeBytes < 2 ^ 32) :
    Except Errno Unit × Pmm :=
  if memSizeBytes = 0 then (.error .invalidArgument, old)
  else
    let bitmapPhys := alignUp kernelEndPaddr 4096
    if bitmapPhys = 0 then
      (.error .badAddress, { old with
        totalFramesCount := memSizeBytes / 4096, total_le := frames_le h })
    else
      let reservedEnd := u32 (bitmapPhys + ((memSizeBytes / 4096 + 31) >>> 5) * 4)
      (.ok (), (List.range ((reservedEnd + 4095) / 4096)).foldl
        (fun q i => q.takeFrame (i * 4096)) (old.cleared memSizeBytes h))

def isUsed (p : Pmm) (f : Nat) : Bool := p.frameBitmap.test f

variable {p : Pmm} {f g a : Nat}

theorem testFrame_mul (p : Pmm) (f : Nat) : p.testFrame (f * 4096) = p.isUsed f := by
  rw [testFrame, Nat.mul_div_cancel f (by decide), isUsed]

@[simp] theorem isUsed_takeFrame (p : Pmm) (f g : Nat) :
    (p.takeFrame (f * 4096)).isUsed g = (decide (g = f) || p.isUsed g) := by
  rw [isUsed, takeFrame, setFrame, Nat.mul_div_cancel f (by decide), Bitmap.test_set, isUsed]

@[simp] theorem isUsed_dropFrame (p : Pmm) (f g : Nat) :
    (p.dropFrame (f * 4096)).isUsed g = (!decide (g = f) && p.isUsed g) := by
  rw [isUsed, dropFrame, clearFrame, Nat.mul_div_cancel f (by decide), Bitmap.test_clear, isUsed]

@[simp] theorem isUsed_reserveFrame (p : Pmm) (f g : Nat) :
    (p.reserveFrame (f * 4096)).isUsed g = (decide (g = f) || p.isUsed g) := by
  rw [reserveFrame, testFrame_mul]
  split_ifs with h
  · exact isUsed_takeFrame p f g
  · by_cases hg : g = f
    · subst hg
      rw [decide_eq_true rfl, Bool.true_or]
      exact (Bool.not_eq_false _).mp h
    · rw [decide_eq_false hg, Bool.false_or]

@[simp] theorem total_takeFrame (p : Pmm) (a : Nat) :
    (p.takeFrame a).totalFramesCount = p.totalFramesCount := rfl

@[simp] theorem total_dropFrame (p : Pmm) (a : Nat) :
    (p.dropFrame a).totalFramesCount = p.totalFramesCount := rfl

@[simp] theorem total_reserveFrame (p : Pmm) (a : Nat) :
    (p.reserveFrame a).totalFramesCount = p.totalFramesCount := by
  rw [reserveFrame]
  split_ifs <;> rfl

theorem isUsed_foldl_takeFrame (p : Pmm) (n f : Nat) :
    ((List.range n).foldl (fun q i => q.takeFrame (i * 4096)) p).isUsed f =
      (decide (f < n) || p.isUsed f) := by
  induction n with
  | zero => simp
  | succ n ih =>
    rw [List.range_succ, List.foldl_append, List.foldl_cons, List.foldl_nil, isUsed_takeFrame, ih,
      ← Bool.or_assoc, ← Bool.decide_or]
    congr 2
    rw [eq_iff_iff]
    omega

theorem total_foldl_takeFrame (p : Pmm) (n : Nat) :
    ((List.range n).foldl (fun q i => q.takeFrame (i * 4096)) p).totalFramesCount =
      p.totalFramesCount := by
  induction n with
  | zero => rfl
  | succ n ih =>
    rw [List.range_succ, List.foldl_append, List.foldl_cons, List.foldl_nil, total_takeFrame, ih]

theorem isUsed_cleared (old : Pmm) {memSizeBytes : Nat} (h : memSizeBytes < 2 ^ 32)
    (hf : f < memSizeBytes / 4096) : (old.cleared memSizeBytes h).isUsed f = false := by
  have hword : f / 32 < (memSizeBytes / 4096 + 31) >>> 5 := by
    rw [Bitmap.shiftRight_five]
    omega
  rw [isUsed, Bitmap.test_eq, cleared]
  dsimp only
  rw [if_pos hword, BitVec.getLsbD_zero]

theorem allocFrame_cases (p : Pmm) :
    (p.allocFrame = (0, p) ∧ ∀ f < p.totalFramesCount, p.isUsed f = true) ∨
    ∃ f < p.totalFramesCount, p.isUsed f = false ∧ (∀ g < f, p.isUsed g = true) ∧
      p.allocFrame = (f * 4096, p.takeFrame (f * 4096)) := by
  cases hfree : p.firstFreeFrame with
  | none =>
    refine .inl ⟨?_, fun f hf => Bitmap.firstClear_none hfree hf⟩
    rw [allocFrame, hfree]
  | some f =>
    obtain ⟨hlt, hclear, hbefore⟩ := Bitmap.firstClear_some hfree
    have hfit : u32 (f * 4096) = f * 4096 := by
      have := p.total_le
      exact u32_of_lt (by omega)
    refine .inr ⟨f, hlt, hclear, hbefore, ?_⟩
    rw [allocFrame, hfree]
    simp only [hfit]

theorem freeFrame_cases (p : Pmm) (paddr : Nat) : (∃ e, p.freeFrame paddr = (.error e, p)) ∨
    ∃ f, paddr = f * 4096 ∧ p.freeFrame paddr = (.ok (), p.dropFrame paddr) := by
  rw [freeFrame]
  split_ifs with halign hused
  · exact .inl ⟨_, rfl⟩
  · exact .inl ⟨_, rfl⟩
  · have hmod : paddr % 4096 = 0 := by
      rw [← Nat.and_two_pow_sub_one_eq_mod paddr 12]
      exact not_not.mp halign
    exact .inr ⟨paddr / 4096, by omega, rfl⟩

theorem freeFrame_of_isUsed (h : p.isUsed f = true) :
    p.freeFrame (f * 4096) = (.ok (), p.dropFrame (f * 4096)) := by
  have halign : f * 4096 &&& 4095 = 0 := by
    rw [Nat.and_two_pow_sub_one_eq_mod (f * 4096) 12]
    exact Nat.mul_mod_left f 4096
  rw [freeFrame, if_neg (not_not_intro halign), if_neg]
  rw [testFrame_mul, h]
  exact Bool.true_eq_false_eq_False

theorem total_reserveRegion (p : Pmm) (a b : Nat) :
    (p.reserveRegion a b).2.totalFramesCount = p.totalFramesCount := by
  rw [reserveRegion]
  split_ifs
  · rfl
  · exact List.foldlRecOn _ _ (motive := fun q : Pmm => q.totalFramesCount = p.totalFramesCount)
      rfl fun q hq i _ => (total_reserveFrame q _).trans hq

theorem reserveRegion_page (p : Pmm) (h : f * 4096 + 2 * 4096 ≤ 2 ^ 32) :
    p.reserveRegion (f * 4096) (f * 4096 + 4096) =
      (.ok (), p.reserveFrame (f * 4096)) := by
  have hfirst : alignDown (f * 4096) 4096 = f * 4096 := by
    rw [alignDown_page (by omega), Nat.mul_div_cancel f (by decide)]
  have hlast : alignUp (f * 4096 + 4096) 4096 = (f + 1) * 4096 := by
    rw [alignUp_page (by omega)]
    omega
  have hone : ((f + 1) * 4096 - f * 4096) / 4096 = 1 := by
    rw [Nat.succ_mul, Nat.add_sub_cancel_left, Nat.div_self (by decide)]
  rw [reserveRegion, if_neg (by omega)]
  simp only [hfirst, hlast, hone, List.range_one, List.foldl_cons, List.foldl_nil, Nat.zero_mul,
    Nat.add_zero]

end Pmm

end CfKernel.Mm
