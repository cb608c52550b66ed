import CfKernel.Lib.Run
import CfKernel.Mm.Pmm

/-!
# The frame allocator over whole runs

After `pmm_init` the counter of used frames is the number of set bits, an allocation takes the
lowest free frame, and a frame handed out stays in use until it is freed or unreserved, over every
sequence of calls on ranges of the memory that leave frame 0 in use.
-/

namespace CfKernel.Mm

open Lib Function

namespace Pmm

def used (p : Pmm) : Finset Nat := (Finset.range p.totalFramesCount).filter fun f => p.isUsed f

/-- The counter is the number of set bits among those of the frames. -/
def Counted (p : Pmm) : Prop := p.framesUsed = p.used.card

variable {p : Pmm} {f g n : Nat}

section Frames

theorem mem_used : f ∈ p.used ↔ f < p.totalFramesCount ∧ p.isUsed f = true := by
  rw [used, Finset.mem_filter, Finset.mem_range]

theorem card_used_le (p : Pmm) : p.used.card ≤ p.totalFramesCount := by
  have hle := Finset.card_filter_le (Finset.range p.totalFramesCount) fun f => p.isUsed f = true
  rwa [Finset.card_range] at hle

theorem Counted.takeFrame (h : p.Counted) (hf : f < p.totalFramesCount) (hfree : p.isUsed f = false) :
    (p.takeFrame (f * 4096)).Counted := by
  have hinsert : (p.takeFrame (f * 4096)).used = insert f p.used := by
    ext g
    rw [Finset.mem_insert, mem_used, mem_used, isUsed_takeFrame, total_takeFrame, Bool.or_eq_true,
      decide_eq_true_iff]
    constructor
    · rintro ⟨hg, rfl | hused⟩
      · exact .inl rfl
      · exact .inr ⟨hg, hused⟩
    · rintro (rfl | ⟨hg, hused⟩)
      · exact ⟨hf, .inl rfl⟩
      · exact ⟨hg, .inr hused⟩
  have hout : f ∉ p.used := by
    rw [mem_used, hfree]
    exact fun hin => Bool.false_ne_true hin.2
  change p.framesUsed + 1 = _
  rw [hinsert, Finset.card_insert_of_notMem hout, h]

theorem Counted.dropFrame (h : p.Counted) (hf : f < p.totalFramesCount) (hused : p.isUsed f = true) :
    (p.dropFrame (f * 4096)).Counted := by
  have herase : (p.dropFrame (f * 4096)).used = p.used.erase f := by
    ext g
    rw [Finset.mem_erase, mem_used, mem_used, isUsed_dropFrame, total_dropFrame, Bool.and_eq_true,
      Bool.not_eq_true', decide_eq_false_iff_not]
    exact ⟨fun ⟨hg, hne, hu⟩ => ⟨hne, hg, hu⟩, fun ⟨hne, hg, hu⟩ => ⟨hg, hne, hu⟩⟩
  change p.framesUsed - 1 = _
  rw [herase, Finset.card_erase_of_mem (mem_used.mpr ⟨hf, hused⟩), h]

theorem Counted.reserveFrame (h : p.Counted) (hf : f < p.totalFramesCount) :
    (p.reserveFrame (f * 4096)).Counted := by
  rw [Pmm.reserveFrame, testFrame_mul]
  split_ifs with hfree
  · exact h.takeFrame hf hfree
  · exact h

theorem Counted.unreserveFrame (h : p.Counted) (hf : f < p.totalFramesCount) :
    (p.unreserveFrame (f * 4096)).Counted := by
  rw [Pmm.unreserveFrame, testFrame_mul]
  split_ifs with hused
  · exact h.dropFrame hf hused
  · exact h

theorem isUsed_unreserveFrame (p : Pmm) (f g : Nat) :
    (p.unreserveFrame (f * 4096)).isUsed g = (!decide (g = f) && p.isUsed g) := by
  rw [unreserveFrame, testFrame_mul]
  split_ifs with hused
  · rw [isUsed_dropFrame]
  · by_cases hg : g = f
    · rw [hg, (Bool.not_eq_true _).mp hused, Bool.and_false]
    · rw [decide_eq_false hg, Bool.not_false, Bool.true_and]

theorem total_unreserveFrame (p : Pmm) (a : Nat) :
    (p.unreserveFrame a).totalFramesCount = p.totalFramesCount := by
  rw [unreserveFrame]
  split_ifs <;> rfl

end Frames

section Regions

/-- The loop of `pmm_reserve_region` over `n` frames from `f` on. -/
def reserveLoop (p : Pmm) (f n : Nat) : Pmm :=
  (List.range n).foldl (fun q i => q.reserveFrame (f * 4096 + i * 4096)) p

def unreserveLoop (p : Pmm) (f n : Nat) : Pmm :=
  (List.range n).foldl (fun q i => q.unreserveFrame (f * 4096 + i * 4096)) p

theorem reserveLoop_succ (p : Pmm) (f n : Nat) :
    p.reserveLoop f (n + 1) = (p.reserveLoop f n).reserveFrame ((f + n) * 4096) := by
  rw [reserveLoop, List.range_succ, List.foldl_append, Nat.add_mul]
  rfl

theorem unreserveLoop_succ (p : Pmm) (f n : Nat) :
    p.unreserveLoop f (n + 1) = (p.unreserveLoop f n).unreserveFrame ((f + n) * 4096) := by
  rw [unreserveLoop, List.range_succ, List.foldl_append, Nat.add_mul]
  rfl

theorem reserveLoop_spec (h : p.Counted) (hn : f + n ≤ p.totalFramesCount) :
    (p.reserveLoop f n).totalFramesCount = p.totalFramesCount ∧ (p.reserveLoop f n).Counted ∧
      ∀ g, (p.reserveLoop f n).isUsed g = (decide (f ≤ g ∧ g < f + n) || p.isUsed g) := by
  induction n with
  | zero =>
    refine ⟨rfl, h, fun g => ?_⟩
    have hno : ¬(f ≤ g ∧ g < f + 0) := by omega
    rw [decide_eq_false hno, Bool.false_or]
    rfl
  | succ n ih =>
    obtain ⟨htotal, hcount, hused⟩ := ih (by omega)
    rw [reserveLoop_succ]
    refine ⟨(total_reserveFrame _ _).trans htotal, hcount.reserveFrame (by omega), fun g => ?_⟩
    rw [isUsed_reserveFrame, hused, ← Bool.or_assoc, ← Bool.decide_or]
    congr 2
    rw [eq_iff_iff]
    omega

theorem unreserveLoop_spec (h : p.Counted) (hn : f + n ≤ p.totalFramesCount) :
    (p.unreserveLoop f n).totalFramesCount = p.totalFramesCount ∧ (p.unreserveLoop f n).Counted ∧
      ∀ g, (p.unreserveLoop f n).isUsed g = (!decide (f ≤ g ∧ g < f + n) && p.isUsed g) := by
  induction n with
  | zero =>
    refine ⟨rfl, h, fun g => ?_⟩
    have hno : ¬(f ≤ g ∧ g < f + 0) := by omega
    rw [decide_eq_false hno, Bool.not_false, Bool.true_and]
    rfl
  | succ n ih =>
    obtain ⟨htotal, hcount, hused⟩ := ih (by omega)
    rw [unreserveLoop_succ]
    refine ⟨(total_unreserveFrame _ _).trans htotal, hcount.unreserveFrame (by omega), fun g => ?_⟩
    have hsplit : (f ≤ g ∧ g < f + (n + 1)) ↔ g = f + n ∨ (f ≤ g ∧ g < f + n) := by omega
    rw [isUsed_unreserveFrame, hused, ← Bool.and_assoc, ← Bool.not_or, ← Bool.decide_or,
      decide_eq_decide.mpr hsplit]

variable {a b : Nat}

theorem region_frames (hab : a < b) (hb : b ≤ 4096 * p.totalFramesCount)
    (hsize : p.totalFramesCount < 2 ^ 20) :
    alignDown a 4096 = a / 4096 * 4096 ∧
      (alignUp b 4096 - alignDown a 4096) / 4096 = (b + 4095) / 4096 - a / 4096 ∧
      a / 4096 + ((b + 4095) / 4096 - a / 4096) = (b + 4095) / 4096 ∧
      (b + 4095) / 4096 ≤ p.totalFramesCount := by
  have hdown : alignDown a 4096 = a / 4096 * 4096 := alignDown_page (by omega)
  have hup : alignUp b 4096 = (b + 4095) / 4096 * 4096 := alignUp_page (by omega)
  refine ⟨hdown, ?_, by omega, by omega⟩
  rw [hdown, hup, ← Nat.sub_mul, Nat.mul_div_cancel _ (by decide)]

theorem reserveRegion_eq (hab : a < b) (hb : b ≤ 4096 * p.totalFramesCount)
    (hsize : p.totalFramesCount < 2 ^ 20) :
    p.reserveRegion a b =
      (.ok (), p.reserveLoop (a / 4096) ((b + 4095) / 4096 - a / 4096)) := by
  obtain ⟨hfirst, hcount, _⟩ := region_frames hab hb hsize
  rw [reserveRegion, if_neg (by omega)]
  dsimp only
  rw [hcount, hfirst, reserveLoop]

theorem unreserveRegion_eq (hab : a < b) (hb : b ≤ 4096 * p.totalFramesCount)
    (hsize : p.totalFramesCount < 2 ^ 20) :
    p.unreserveRegion a b =
      (.ok (), p.unreserveLoop (a / 4096) ((b + 4095) / 4096 - a / 4096)) := by
  obtain ⟨hfirst, hcount, _⟩ := region_frames hab hb hsize
  rw [unreserveRegion, if_neg (by omega)]
  dsimp only
  rw [hcount, hfirst, unreserveLoop]

end Regions

end Pmm

section Runs

inductive PmmCall where
  | alloc
  | free (paddr : Nat)
  | reserve (paddrStart paddrEnd : Nat)
  | unreserve (paddrStart paddrEnd : Nat)

/-- The allocator and the frames, by address, that it has handed out and not got back. -/
structure PmmRun where
  pmm : Pmm
  handed : Nat → Bool

/-- The frame at `a` lies in the range from `lo` to `hi`. -/
def InFrames (lo hi a : Nat) : Prop := lo / 4096 ≤ a / 4096 ∧ a / 4096 < (hi + 4095) / 4096

instance (lo hi a : Nat) : Decidable (InFrames lo hi a) := inferInstanceAs (Decidable (_ ∧ _))

def PmmRun.step (c : PmmCall) (w : PmmRun) : PmmRun :=
  match c with
  | .alloc =>
    match w.pmm.allocFrame with
    | (a, p) => ⟨p, if a = 0 then w.handed else update w.handed a true⟩
  | .free paddr =>
    match w.pmm.freeFrame paddr with
    | (.ok (), p) => ⟨p, update w.handed paddr false⟩
    | (.error _, p) => { w with pmm := p }
  | .reserve lo hi => { w with pmm := (w.pmm.reserveRegion lo hi).2 }
  | .unreserve lo hi =>
    match w.pmm.unreserveRegion lo hi with
    | (.ok (), p) => ⟨p, fun a => if InFrames lo hi a then false else w.handed a⟩
    | (.error _, p) => { w with pmm := p }

/-- A call on the memory that does not release frame 0. -/
def InMemory (c : PmmCall) (w : PmmRun) : Prop :=
  match c with
  | .alloc => True
  | .free paddr => paddr ≠ 0 ∧ paddr < 4096 * w.pmm.totalFramesCount
  | .reserve _ hi => hi ≤ 4096 * w.pmm.totalFramesCount
  | .unreserve lo hi => (lo < hi → 4096 ≤ lo) ∧ hi ≤ 4096 * w.pmm.totalFramesCount

structure Consistent (w : PmmRun) : Prop where
  counted : w.pmm.Counted
  size : w.pmm.totalFramesCount < 2 ^ 20
  zero : 0 < w.pmm.totalFramesCount → w.pmm.isUsed 0 = true
  handed : ∀ a, w.handed a = true → a ≠ 0 ∧ a % 4096 = 0 ∧ w.pmm.isUsed (a / 4096) = true

variable {w : PmmRun}

theorem consistent_alloc (h : Consistent w) : Consistent (w.step .alloc) := by
  rcases w.pmm.allocFrame_cases with ⟨hrun, _⟩ | ⟨f, hf, hfree, hlow, hrun⟩
  · have hstep : w.step .alloc = w := by
      rw [PmmRun.step, hrun]
      exact congrArg (PmmRun.mk w.pmm) (if_pos rfl)
    rw [hstep]
    exact h
  · have hf0 : f ≠ 0 := by
      rintro rfl
      rw [h.zero hf] at hfree
      cases hfree
    have hstep : w.step .alloc =
        ⟨w.pmm.takeFrame (f * 4096), update w.handed (f * 4096) true⟩ := by
      rw [PmmRun.step, hrun]
      exact congrArg (PmmRun.mk _) (if_neg (by omega))
    rw [hstep]
    refine ⟨h.counted.takeFrame hf hfree, h.size, fun h0 => ?_, fun a ha => ?_⟩
    · rw [Pmm.isUsed_takeFrame, h.zero h0, Bool.or_true]
    · change update w.handed (f * 4096) true a = true at ha
      rw [Pmm.isUsed_takeFrame]
      by_cases hfa : a = f * 4096
      · rw [hfa, Nat.mul_mod_left, Nat.mul_div_cancel f (by decide), decide_eq_true rfl,
          Bool.true_or]
        exact ⟨by omega, rfl, rfl⟩
      · rw [update_of_ne hfa] at ha
        obtain ⟨ha0, hmod, hbit⟩ := h.handed a ha
        rw [hbit, Bool.or_true]
        exact ⟨ha0, hmod, rfl⟩

theorem consistent_free (h : Consistent w) {paddr : Nat} (hp0 : paddr ≠ 0)
    (hp : paddr < 4096 * w.pmm.totalFramesCount) : Consistent (w.step (.free paddr)) := by
  by_cases halign : paddr % 4096 = 0
  swap
  · rcases w.pmm.freeFrame_cases paddr with ⟨e, hrun⟩ | ⟨f, hpf, _⟩
    · rw [PmmRun.step, hrun]
      exact h
    · rw [hpf, Nat.mul_mod_left] at halign
      exact absurd rfl halign
  obtain ⟨f, rfl⟩ : ∃ f, paddr = f * 4096 := ⟨paddr / 4096, by omega⟩
  by_cases hused : w.pmm.isUsed f = true
  · rw [PmmRun.step, Pmm.freeFrame_of_isUsed hused]
    refine ⟨h.counted.dropFrame (by omega) hused, h.size, fun h0 => ?_, fun a ha => ?_⟩
    · have hne : (0 : Nat) ≠ f := by omega
      rw [Pmm.isUsed_dropFrame, decide_eq_false hne, Bool.not_false, Bool.true_and]
      exact h.zero h0
    · change update w.handed (f * 4096) false a = true at ha
      have hfa : a ≠ f * 4096 := by
        rintro rfl
        rw [update_self] at ha
        cases ha
      rw [update_of_ne hfa] at ha
      obtain ⟨ha0, hmod, hbit⟩ := h.handed a ha
      have hne : a / 4096 ≠ f := by omega
      rw [Pmm.isUsed_dropFrame, decide_eq_false hne, Bool.not_false, Bool.true_and]
      exact ⟨ha0, hmod, hbit⟩
  · have hrun : w.pmm.freeFrame (f * 4096) = (.error .invalidArgument, w.pmm) := by
      have hzero : f * 4096 &&& 4095 = 0 := by
        rw [Nat.and_two_pow_sub_one_eq_mod (f * 4096) 12]
        exact halign
      rw [Pmm.freeFrame, if_neg (not_not_intro hzero), Pmm.testFrame_mul,
        if_pos ((Bool.not_eq_true _).mp hused)]
    rw [PmmRun.step, hrun]
    exact h

theorem consistent_reserve (h : Consistent w) {lo hi : Nat}
    (hhi : hi ≤ 4096 * w.pmm.totalFramesCount) : Consistent (w.step (.reserve lo hi)) := by
  by_cases hab : lo < hi
  · obtain ⟨_, _, hlast, hle⟩ := Pmm.region_frames hab hhi h.size
    obtain ⟨htotal, hcount, hused⟩ := Pmm.reserveLoop_spec h.counted (hlast.trans_le hle)
    rw [PmmRun.step, Pmm.reserveRegion_eq hab hhi h.size]
    refine ⟨hcount, htotal ▸ h.size, fun h0 => ?_, fun a ha => ?_⟩
    · rw [hused, h.zero (htotal ▸ h0), Bool.or_true]
    · obtain ⟨ha0, hmod, hbit⟩ := h.handed a ha
      rw [hused, hbit, Bool.or_true]
      exact ⟨ha0, hmod, rfl⟩
  · have hrun : w.pmm.reserveRegion lo hi = (.error .invalidArgument, w.pmm) := by
      rw [Pmm.reserveRegion, if_pos (not_lt.mp hab)]
    rw [PmmRun.step, hrun]
    exact h

theorem consistent_unreserve (h : Consistent w) {lo hi : Nat} (hlo : lo < hi → 4096 ≤ lo)
    (hhi : hi ≤ 4096 * w.pmm.totalFramesCount) : Consistent (w.step (.unreserve lo hi)) := by
  by_cases hab : lo < hi
  · obtain ⟨_, _, hlast, hle⟩ := Pmm.region_frames hab hhi h.size
    obtain ⟨htotal, hcount, hused⟩ := Pmm.unreserveLoop_spec h.counted (hlast.trans_le hle)
    rw [hlast] at hused
    rw [PmmRun.step, Pmm.unreserveRegion_eq hab hhi h.size]
    refine ⟨hcount, htotal ▸ h.size, fun h0 => ?_, fun a ha => ?_⟩
    · have hlow := hlo hab
      have hno : ¬(lo / 4096 ≤ 0 ∧ 0 < (hi + 4095) / 4096) := by omega
      rw [hused, decide_eq_false hno, Bool.not_false, Bool.true_and]
      exact h.zero (htotal ▸ h0)
    · change (if InFrames lo hi a then false else w.handed a) = true at ha
      by_cases hin : InFrames lo hi a
      · rw [if_pos hin] at ha
        cases ha
      · rw [if_neg hin] at ha
        have hno : ¬(lo / 4096 ≤ a / 4096 ∧ a / 4096 < (hi + 4095) / 4096) := hin
        rw [hused, decide_eq_false hno, Bool.not_false, Bool.true_and]
        exact h.handed a ha
  · have hrun : w.pmm.unreserveRegion lo hi = (.error .invalidArgument, w.pmm) := by
      rw [Pmm.unreserveRegion, if_pos (not_lt.mp hab)]
    rw [PmmRun.step, hrun]
    exact h

theorem consistent_step (c : PmmCall) (w : PmmRun) (h : Consistent w) (hc : InMemory c w) :
    Consistent (w.step c) := by
  cases c with
  | alloc => exact consistent_alloc h
  | free paddr => exact consistent_free h hc.1 hc.2
  | reserve lo hi => exact consistent_reserve h hc
  | unreserve lo hi => exact consistent_unreserve h hc.1 hc.2

end Runs

section Start

variable {old : Pmm} {memSizeBytes kernelEndPaddr : Nat}

/-- The end of the bitmap that `pmm_init` lays out behind the kernel. -/
def bitmapEnd (memSizeBytes kernelEndPaddr : Nat) : Nat :=
  alignUp kernelEndPaddr 4096 + ((memSizeBytes / 4096 + 31) >>> 5) * 4

theorem Pmm.counted_foldl_takeFrame {p : Pmm} (hp : p.Counted)
    (hfree : ∀ f, f < p.totalFramesCount → p.isUsed f = false) {n : Nat}
    (hn : n ≤ p.totalFramesCount) :
    ((List.range n).foldl (fun q i => q.takeFrame (i * 4096)) p).Counted := by
  induction n with
  | zero => exact hp
  | succ n ih =>
    rw [List.range_succ, List.foldl_append, List.foldl_cons, List.foldl_nil]
    refine (ih (by omega)).takeFrame ?_ ?_
    · rw [total_foldl_takeFrame]
      exact hn
    · rw [isUsed_foldl_takeFrame, hfree n hn, decide_eq_false (lt_irrefl n), Bool.or_false]

theorem Pmm.counted_cleared (old : Pmm) (h : memSizeBytes < 2 ^ 32) :
    (old.cleared memSizeBytes h).Counted := by
  have hempty : (old.cleared memSizeBytes h).used = ∅ := by
    refine Finset.filter_eq_empty_iff.mpr fun f hf => ?_
    rw [isUsed_cleared old h (Finset.mem_range.mp hf)]
    exact Bool.false_ne_true
  change 0 = (old.cleared memSizeBytes h).used.card
  rw [hempty, Finset.card_empty]

theorem consistent_start (hmem : memSizeBytes < 2 ^ 32)
    (hok : (old.init memSizeBytes kernelEndPaddr hmem).1 = .ok ())
    (hfits : bitmapEnd memSizeBytes kernelEndPaddr ≤ 4096 * (memSizeBytes / 4096)) :
    Consistent ⟨(old.init memSizeBytes kernelEndPaddr hmem).2, fun _ => false⟩ := by
  obtain ⟨n, hn⟩ : ∃ n, n = (bitmapEnd memSizeBytes kernelEndPaddr + 4095) / 4096 := ⟨_, rfl⟩
  have hpos : 0 < n ∧ (old.init memSizeBytes kernelEndPaddr hmem).2 =
      (List.range n).foldl (fun q i => q.takeFrame (i * 4096)) (old.cleared memSizeBytes hmem) := by
    rw [Pmm.init] at hok ⊢
    by_cases hzero : memSizeBytes = 0
    · rw [if_pos hzero] at hok
      cases hok
    rw [if_neg hzero] at hok ⊢
    dsimp only at hok ⊢
    by_cases hphys : alignUp kernelEndPaddr 4096 = 0
    · rw [if_pos hphys] at hok
      cases hok
    have hend : u32 (alignUp kernelEndPaddr 4096 + ((memSizeBytes / 4096 + 31) >>> 5) * 4) =
        bitmapEnd memSizeBytes kernelEndPaddr := u32_of_lt (by rw [← bitmapEnd]; omega)
    rw [if_neg hphys, hend, ← hn]
    refine ⟨?_, rfl⟩
    rw [hn, bitmapEnd]
    omega
  rw [hpos.2]
  have htotal : ((List.range n).foldl (fun q i => q.takeFrame (i * 4096))
      (old.cleared memSizeBytes hmem)).totalFramesCount = memSizeBytes / 4096 :=
    Pmm.total_foldl_takeFrame _ _
  refine ⟨Pmm.counted_foldl_takeFrame (Pmm.counted_cleared old hmem)
    (fun f hf => Pmm.isUsed_cleared old hmem hf) (by change n ≤ memSizeBytes / 4096; omega),
    by rw [htotal]; omega, fun _ => ?_, fun a ha => ?_⟩
  · rw [Pmm.isUsed_foldl_takeFrame, decide_eq_true hpos.1, Bool.true_or]
  · cases ha

end Start

/-- What the allocator is to do in a state. -/
structure Accounted (w : PmmRun) : Prop where
  used : w.pmm.usedFrames =
    ((Finset.range w.pmm.totalFrames).filter fun f => w.pmm.isUsed f).card
  sum : w.pmm.usedFrames + w.pmm.freeFrames = w.pmm.totalFrames
  full : w.pmm.allocFrame.1 = 0 ↔ ∀ f < w.pmm.totalFrames, w.pmm.isUsed f = true
  unchanged : w.pmm.allocFrame.1 = 0 → w.pmm.allocFrame.2 = w.pmm
  /-- The lowest free frame, and no other, is marked. -/
  lowest : w.pmm.allocFrame.1 ≠ 0 → ∃ f < w.pmm.totalFrames, w.pmm.allocFrame.1 = f * 4096 ∧
    w.pmm.isUsed f = false ∧ (∀ g < f, w.pmm.isUsed g = true) ∧
    ∀ g, w.pmm.allocFrame.2.isUsed g = (decide (g = f) || w.pmm.isUsed g)
  /-- A frame that was handed out and not given back is not handed out again. -/
  once : ∀ a, w.handed a = true → w.pmm.allocFrame.1 ≠ a
  refused : ∀ paddr, paddr % 4096 ≠ 0 ∨ w.pmm.isUsed (paddr / 4096) = false →
    ∃ e, w.pmm.freeFrame paddr = (.error e, w.pmm)

theorem Consistent.accounted {w : PmmRun} (h : Consistent w) : Accounted w := by
  have hle := w.pmm.card_used_le
  rw [← h.counted] at hle
  have hfree : w.pmm.freeFrames = w.pmm.totalFramesCount - w.pmm.framesUsed := by
    have hsize := h.size
    rw [Pmm.freeFrames, u32]
    omega
  have hsum : w.pmm.usedFrames + w.pmm.freeFrames = w.pmm.totalFrames := by
    rw [hfree]
    exact Nat.add_sub_cancel' hle
  have hrefused : ∀ paddr, paddr % 4096 ≠ 0 ∨ w.pmm.isUsed (paddr / 4096) = false →
      ∃ e, w.pmm.freeFrame paddr = (.error e, w.pmm) := by
    intro paddr hbad
    rw [Pmm.freeFrame, Nat.and_two_pow_sub_one_eq_mod paddr 12]
    by_cases halign : paddr % 2 ^ 12 ≠ 0
    · exact ⟨_, if_pos halign⟩
    · have hbit : w.pmm.testFrame paddr = false := hbad.resolve_left halign
      rw [if_neg halign, if_pos hbit]
      exact ⟨_, rfl⟩
  rcases w.pmm.allocFrame_cases with ⟨hrun, hall⟩ | ⟨f, hf, hfreef, hlow, hrun⟩
  · refine ⟨h.counted, hsum, ?_, ?_, ?_, ?_, hrefused⟩
    · rw [hrun]
      exact ⟨fun _ => hall, fun _ => rfl⟩
    · rw [hrun]
      exact fun _ => rfl
    · rw [hrun]
      exact fun h0 => absurd rfl h0
    · intro a ha
      rw [hrun]
      exact (h.handed a ha).1.symm
  · have hf0 : f ≠ 0 := by
      rintro rfl
      rw [h.zero hf] at hfreef
      cases hfreef
    have hne : f * 4096 ≠ 0 := by omega
    refine ⟨h.counted, hsum, ?_, ?_, ?_, ?_, hrefused⟩
    · rw [hrun]
      refine ⟨fun h0 => absurd h0 hne, fun hall => ?_⟩
      rw [hall f hf] at hfreef
      cases hfreef
    · rw [hrun]
      exact fun h0 => absurd h0 hne
    · rw [hrun]
      exact fun _ => ⟨f, hf, rfl, hfreef, hlow, Pmm.isUsed_takeFrame w.pmm f⟩
    · intro a ha he
      rw [hrun] at he
      obtain ⟨_, _, hbit⟩ := h.handed a ha
      rw [← he, Nat.mul_div_cancel f (by decide), hfreef] at hbit
      cases hbit

/-- After `pmm_init` with the bitmap inside the memory, the frames are accounted for in every state
of every run of calls on that memory. -/
theorem frames_accounted (old : Pmm) {memSizeBytes kernelEndPaddr : Nat}
    (hmem : memSizeBytes < 2 ^ 32)
    (hok : (old.init memSizeBytes kernelEndPaddr hmem).1 = .ok ())
    (hfits : bitmapEnd memSizeBytes kernelEndPaddr ≤ 4096 * (memSizeBytes / 4096)) {w : PmmRun}
    (h : Reach PmmRun.step InMemory
      ⟨(old.init memSizeBytes kernelEndPaddr hmem).2, fun _ => false⟩ w) : Accounted w :=
  (h.invariant Consistent (consistent_start hmem hok hfits) consistent_step).accounted

theorem nineFrames_size : 36864 < 2 ^ 32 := by decide

theorem noFrames_le : 0 ≤ 2 ^ 20 := by decide

def noFrames : Pmm := ⟨fun _ => 0#32, 0, 0, noFrames_le⟩

/-- Nine frames, a count that is no multiple of 32, with the kernel's end in frame 0. -/
def nineFrames : PmmRun := ⟨(noFrames.init 36864 1 nineFrames_size).2, fun _ => false⟩

theorem frames_accounted_nine : Accounted (nineFrames.step .alloc) := by
  have hreach : Reach PmmRun.step InMemory nineFrames (nineFrames.step .alloc) :=
    Reach.step PmmCall.alloc Reach.start trivial
  have hfits : bitmapEnd 36864 1 ≤ 4096 * (36864 / 4096) := by decide
  exact frames_accounted noFrames nineFrames_size rfl hfits hreach

end CfKernel.Mm
