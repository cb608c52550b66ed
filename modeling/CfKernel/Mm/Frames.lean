import CfKernel.Mm.HeapRun

/-!
# Two owners of physical memory

The heap and the frame allocator share physical memory. A growing heap marks its new pages as used,
so the allocator does not hand them out again; but it takes them without asking whether they are
handed out already. A run in which no growth meets a frame that is handed out, and no page of the
heap is given back to the allocator, keeps the two apart.
-/

namespace CfKernel.Mm

open Lib Lib.Eff Function

/-- `TOTAL_RAM` and `KERNEL_END` of `kernel.c`. -/
def totalRam : Nat := 128 * 1024 * 1024

def kernelEnd : Nat := 0x00200000

/-- The state that `kmain` sets up with `pmm_init` and `heap_init`. -/
def kmainInit (s : Machine) : Machine :=
  heapInit heapStart heapMax { s with pmm := (s.pmm.init totalRam kernelEnd (by decide)).2 }

/-- A step that leaves the frames and the heap's range alone. -/
structure KeepsFrames (s t : Machine) : Prop where
  pmm : t.pmm = s.pmm
  start : t.heap.startAddr = s.heap.startAddr
  stop : t.heap.endAddr = s.heap.endAddr
  max : t.heap.maxAddr = s.heap.maxAddr

instance : Std.Refl KeepsFrames := ⟨fun _ => ⟨rfl, rfl, rfl, rfl⟩⟩

instance : IsTrans Machine KeepsFrames := ⟨fun _ _ _ h h' =>
  ⟨h'.pmm.trans h.pmm, h'.start.trans h.start, h'.stop.trans h.stop, h'.max.trans h.max⟩⟩

/-- The heap ends at a page, and no address in its range wraps. -/
structure PageEnd (h : HeapVars) : Prop where
  whole : h.endAddr % 4096 = 0
  end_le_max : h.endAddr ≤ h.maxAddr
  max_lt : h.maxAddr + 4096 < 2 ^ 32

/-- What a growing heap does to the frames: those of new pages are marked, none is unmarked. -/
structure Claims (s t : Machine) : Prop where
  pageEnd : PageEnd t.heap
  start : t.heap.startAddr = s.heap.startAddr
  max : t.heap.maxAddr = s.heap.maxAddr
  total : t.pmm.totalFramesCount = s.pmm.totalFramesCount
  end_le : s.heap.endAddr ≤ t.heap.endAddr
  used : ∀ f, s.pmm.isUsed f = true → t.pmm.isUsed f = true
  new : ∀ f, s.heap.endAddr ≤ f * 4096 → f * 4096 < t.heap.endAddr → t.pmm.isUsed f = true

def ClaimsFrames (s t : Machine) : Prop := PageEnd s.heap → Claims s t

variable {s t u : Machine}

theorem KeepsFrames.claims (h : KeepsFrames s t) (hs : PageEnd s.heap) : Claims s t := by
  refine ⟨⟨?_, ?_, ?_⟩, h.start, h.max, by rw [h.pmm], h.stop.ge, fun f hf => h.pmm ▸ hf,
    fun f hlo hhi => ?_⟩
  · rw [h.stop]
    exact hs.whole
  · rw [h.stop, h.max]
    exact hs.end_le_max
  · rw [h.max]
    exact hs.max_lt
  · rw [h.stop] at hhi
    exact absurd hhi (not_lt.mpr hlo)

theorem Claims.trans (h : Claims s t) (h' : Claims t u) : Claims s u where
  pageEnd := h'.pageEnd
  start := h'.start.trans h.start
  max := h'.max.trans h.max
  total := h'.total.trans h.total
  end_le := h.end_le.trans h'.end_le
  used f hf := h'.used f (h.used f hf)
  new f hlo hhi := by
    by_cases hmid : f * 4096 < t.heap.endAddr
    · exact h'.used f (h.new f hlo hmid)
    · exact h'.new f (not_lt.mp hmid) hhi

instance : Std.Refl ClaimsFrames := ⟨fun s => (Std.Refl.refl s : KeepsFrames s s).claims⟩

instance : IsTrans Machine ClaimsFrames := ⟨fun _ _ _ h h' hs => (h hs).trans (h' (h hs).pageEnd)⟩

theorem moves_claims {α : Type} {x : MachineM α} (h : Moves KeepsFrames x) : Moves ClaimsFrames x :=
  h.mono fun _ _ => KeepsFrames.claims

theorem moves_read32 (a : Nat) : Moves KeepsFrames (read32 a) := by
  intro s
  rw [read32, guarded]
  split_ifs <;> exact Std.Refl.refl s

theorem moves_write32 (a v : Nat) : Moves KeepsFrames (write32 a v) := by
  intro s
  rw [write32, guarded]
  split_ifs <;> exact ⟨rfl, rfl, rfl, rfl⟩

theorem moves_heapVars : Moves KeepsFrames heapVars := fun s => Std.Refl.refl s

theorem moves_setBase (b : Nat) : Moves KeepsFrames (setHeap fun h => { h with base := b }) :=
  fun _ => ⟨rfl, rfl, rfl, rfl⟩

theorem moves_findFreeChunkFrom (size turns cur : Nat) :
    Moves KeepsFrames (findFreeChunkFrom size turns cur) := by
  induction turns generalizing cur with
  | zero => exact moves_fail _
  | succ turns ih =>
    rw [findFreeChunkFrom]
    split_ifs
    · exact moves_pure 0
    refine (moves_read32 _).bind fun free => (moves_read32 _).bind fun curSize => ?_
    split_ifs
    · exact moves_pure cur
    · exact (moves_read32 _).bind ih

theorem moves_findFreeChunk (size : Nat) : Moves KeepsFrames (findFreeChunk size) := by
  rw [findFreeChunk]
  exact moves_heapVars.bind fun h => moves_findFreeChunkFrom size _ h.base

theorem moves_lastChunkFrom (turns cur : Nat) : Moves KeepsFrames (lastChunkFrom turns cur) := by
  induction turns generalizing cur with
  | zero => exact moves_fail _
  | succ turns ih =>
    refine (moves_read32 _).bind fun next => ?_
    split_ifs
    · exact moves_pure cur
    · exact ih next

theorem moves_placeChunk (chunk size : Nat) : Moves KeepsFrames (placeChunk chunk size) := by
  refine (moves_write32 _ _).bind fun _ => (moves_write32 _ _).bind fun _ =>
    (moves_write32 _ _).bind fun _ => (moves_write32 _ _).bind fun _ =>
    moves_heapVars.bind fun h => ?_
  split_ifs
  · exact moves_setBase chunk
  · exact (moves_lastChunkFrom _ _).bind fun last => (moves_write32 _ _).bind fun _ =>
      moves_write32 _ _

theorem moves_expandHeapByPages (pages : Nat) : Moves ClaimsFrames (expandHeapByPages pages) := by
  induction pages with
  | zero => exact moves_pure _
  | succ pages ih =>
    intro s h
    have hlt := h.max_lt
    rw [expandHeapByPages_turn h.end_le_max hlt]
    split_ifs with hmax hdir
    · exact (Std.Refl.refl s : KeepsFrames s s).claims h
    · have hpage : Claims s (withPage s) := by
        refine ⟨⟨?_, not_lt.mp hmax, hlt⟩, rfl, rfl, Pmm.total_reserveRegion _ _ _,
          Nat.le_add_right _ _, fun f hf => ?_, fun f hlo hhi => ?_⟩
        · exact (Nat.add_mod_right _ _).trans h.whole
        · rw [isUsed_withPage h.whole (by omega), hf, Bool.or_true]
        · have halign := h.whole
          change f * 4096 < s.heap.endAddr + 4096 at hhi
          rw [isUsed_withPage halign (by omega), decide_eq_true (by omega), Bool.true_or]
      exact hpage.trans (ih (withPage s) hpage.pageEnd)
    · refine ⟨h, rfl, rfl, Pmm.total_reserveRegion _ _ _, le_rfl, fun f hf => ?_,
        fun f hlo hhi => absurd hhi (not_lt.mpr hlo)⟩
      rw [isUsed_withPage h.whole (by omega), hf, Bool.or_true]

theorem moves_requestSpace (size : Nat) : Moves ClaimsFrames (requestSpace size) := by
  rw [requestSpace]
  refine (moves_expandHeapByPages _).bind fun rc => ?_
  cases rc with
  | error e => exact moves_pure 0
  | ok _ =>
    refine moves_claims (moves_heapVars.bind fun h => ?_)
    exact (moves_placeChunk _ _).bind fun _ => moves_pure _

theorem moves_malloc (size : Nat) : Moves ClaimsFrames (malloc size) := by
  rw [malloc]
  split_ifs
  · exact moves_pure 0
  refine (moves_claims (moves_findFreeChunk size)).bind fun chunk => ?_
  split_ifs
  · exact (moves_claims (moves_write32 _ _)).bind fun _ => moves_pure _
  refine (moves_requestSpace size).bind fun chunk => ?_
  split_ifs <;> exact moves_pure _

theorem moves_absorb (b c : Nat) : Moves KeepsFrames (absorb b c) := by
  refine (moves_read32 _).bind fun _ => (moves_read32 _).bind fun _ =>
    (moves_write32 _ _).bind fun _ => (moves_read32 _).bind fun next =>
    (moves_write32 _ _).bind fun _ => ?_
  split_ifs
  · exact moves_write32 _ _
  · exact moves_pure ()

theorem moves_mergeNext (chunk : Nat) : Moves KeepsFrames (mergeNext chunk) := by
  rw [mergeNext]
  refine (moves_read32 (chunk + 12)).bind fun next => ?_
  split_ifs
  · exact moves_pure ()
  refine (moves_read32 (next + 4)).bind fun nextFree => ?_
  split_ifs
  · exact moves_absorb chunk next
  · exact moves_pure ()

theorem moves_mergePrev (chunk : Nat) : Moves KeepsFrames (mergePrev chunk) := by
  rw [mergePrev]
  refine (moves_read32 (chunk + 8)).bind fun prev => ?_
  split_ifs
  · exact moves_pure ()
  refine (moves_read32 (prev + 4)).bind fun prevFree => ?_
  split_ifs
  · exact moves_absorb prev chunk
  · exact moves_pure ()

theorem moves_free (ptr : Nat) : Moves KeepsFrames (free ptr) := by
  rw [free]
  split_ifs
  · exact moves_pure ()
  refine Moves.bind ?_ fun _ => Moves.bind ?_ fun _ => ?_
  · exact moves_write32 _ _
  · exact moves_mergeNext _
  · exact moves_mergePrev _

/-! ## Runs of both allocators -/

structure Memory where
  machine : Machine
  /-- Frames that `pmm_alloc_frame` returned and that were not freed since. -/
  handed : Nat → Bool

inductive MemRequest where
  | malloc (size : Nat)
  | free (ptr : Nat)
  | allocFrame
  | freeFrame (paddr : Nat)
  deriving DecidableEq

def memStep (r : MemRequest) (s : Memory) : Memory :=
  match r with
  | .malloc size => { s with machine := (malloc size s.machine).2 }
  | .free ptr => { s with machine := (free ptr s.machine).2 }
  | .allocFrame =>
    let a := s.machine.pmm.allocFrame.1
    { machine := (pmmAllocFrame s.machine).2
      handed := if a = 0 then s.handed else update s.handed a true }
  | .freeFrame paddr =>
    { machine := (pmmFreeFrame paddr s.machine).2
      handed := if (s.machine.pmm.freeFrame paddr).1.isOk then update s.handed paddr false
        else s.handed }

def heapRange (s : Machine) : Set Nat := Set.Ico s.heap.startAddr s.heap.endAddr

def OwnedOnce (s : Memory) : Prop := ∀ a, s.handed a = true → a ∉ heapRange s.machine

/-- A growing heap takes no frame that is handed out, and no page of the heap is freed. -/
def Apart (r : MemRequest) (s : Memory) : Prop :=
  match r with
  | .malloc size => ∀ a, s.handed a = true →
      ¬ (s.machine.heap.endAddr ≤ a ∧ a < (malloc size s.machine).2.heap.endAddr)
  | .freeFrame paddr => paddr % 4096 = 0 → paddr ∉ heapRange s.machine
  | _ => True

structure Separate (s : Memory) : Prop where
  start_le_end : s.machine.heap.startAddr ≤ s.machine.heap.endAddr
  total : s.machine.heap.maxAddr ≤ s.machine.pmm.totalFramesCount * 4096
  start_pos : 0 < s.machine.heap.startAddr
  pageEnd : PageEnd s.machine.heap
  used : ∀ f, f * 4096 ∈ heapRange s.machine → s.machine.pmm.isUsed f = true
  once : OwnedOnce s

variable {m : Memory}

theorem Separate.claims (h : Separate m) (ht : Claims m.machine t)
    (hnew : ∀ a, m.handed a = true → ¬ (m.machine.heap.endAddr ≤ a ∧ a < t.heap.endAddr)) :
    Separate { m with machine := t } := by
  refine ⟨ht.start.trans_le (h.start_le_end.trans ht.end_le), ?_, ht.start ▸ h.start_pos,
    ht.pageEnd, fun f hf => ?_, fun a ha hin => ?_⟩
  · exact ht.max.trans_le (h.total.trans_eq (by rw [ht.total]))
  · rw [heapRange, Set.mem_Ico, ht.start] at hf
    by_cases hold : f * 4096 < m.machine.heap.endAddr
    · exact ht.used f (h.used f ⟨hf.1, hold⟩)
    · exact ht.new f (not_lt.mp hold) hf.2
  · rw [heapRange, Set.mem_Ico, ht.start] at hin
    by_cases hold : a < m.machine.heap.endAddr
    · exact h.once a ha ⟨hin.1, hold⟩
    · exact hnew a ha ⟨not_lt.mp hold, hin.2⟩

def withFrame (m : Memory) (f : Nat) : Memory where
  machine := { m.machine with pmm := m.machine.pmm.takeFrame (f * 4096) }
  handed := if f * 4096 = 0 then m.handed else update m.handed (f * 4096) true

theorem handed_withFrame {m : Memory} {f : Nat} (hf : f ≠ 0) :
    (withFrame m f).handed = update m.handed (f * 4096) true :=
  if_neg (by omega)

theorem memStep_allocFrame (m : Memory) :
    (memStep .allocFrame m = m ∧
      ∀ f < m.machine.pmm.totalFramesCount, m.machine.pmm.isUsed f = true) ∨
    ∃ f < m.machine.pmm.totalFramesCount, m.machine.pmm.isUsed f = false ∧
      (∀ g < f, m.machine.pmm.isUsed g = true) ∧ memStep .allocFrame m = withFrame m f := by
  rcases m.machine.pmm.allocFrame_cases with ⟨halloc, hfull⟩ | ⟨f, hlt, hfree, hlow, halloc⟩
  · refine .inl ⟨?_, hfull⟩
    rw [memStep, pmmAllocFrame, halloc]
    rfl
  · refine .inr ⟨f, hlt, hfree, hlow, ?_⟩
    rw [memStep, pmmAllocFrame, halloc]
    rfl

def withoutFrame (m : Memory) (f : Nat) : Memory where
  machine := { m.machine with pmm := m.machine.pmm.dropFrame (f * 4096) }
  handed := update m.handed (f * 4096) false

theorem handed_withoutFrame (m : Memory) (f : Nat) :
    (withoutFrame m f).handed = update m.handed (f * 4096) false := rfl

theorem memStep_freeFrame (m : Memory) (paddr : Nat) : memStep (.freeFrame paddr) m = m ∨
    ∃ f, paddr = f * 4096 ∧ memStep (.freeFrame paddr) m = withoutFrame m f := by
  rcases m.machine.pmm.freeFrame_cases paddr with ⟨e, hfree⟩ | ⟨f, rfl, hfree⟩
  · refine .inl ?_
    rw [memStep, pmmFreeFrame, hfree]
    rfl
  · refine .inr ⟨f, rfl, ?_⟩
    rw [memStep, pmmFreeFrame, hfree]
    rfl

theorem Separate.step (h : Separate m) {r : MemRequest} (hr : Apart r m) :
    Separate (memStep r m) := by
  cases r with
  | malloc size => exact h.claims (moves_malloc size m.machine h.pageEnd) hr
  | free ptr =>
    have hkeeps := moves_free ptr m.machine
    refine h.claims (hkeeps.claims h.pageEnd) fun a _ ha => ?_
    rw [hkeeps.stop] at ha
    exact absurd ha.2 (not_lt.mpr ha.1)
  | allocFrame =>
    rcases memStep_allocFrame m with ⟨hsame, -⟩ | ⟨f, -, hfree, -, hnext⟩
    · rw [hsame]
      exact h
    -- a frame that is free in the bitmap is no page of the heap
    have hout : f * 4096 ∉ heapRange m.machine := by
      intro hin
      rw [h.used f hin] at hfree
      cases hfree
    rw [hnext]
    refine ⟨h.start_le_end, h.total, h.start_pos, h.pageEnd, fun g hg => ?_, fun a ha => ?_⟩
    · change (m.machine.pmm.takeFrame (f * 4096)).isUsed g = true
      rw [Pmm.isUsed_takeFrame, h.used g hg, Bool.or_true]
    · by_cases haf : a = f * 4096
      · rw [haf]
        exact hout
      · refine h.once a ?_
        dsimp only [withFrame] at ha
        split_ifs at ha
        · exact ha
        · rwa [update_of_ne haf] at ha
  | freeFrame paddr =>
    rcases memStep_freeFrame m paddr with hsame | ⟨f, rfl, hnext⟩
    · rw [hsame]
      exact h
    rw [hnext]
    refine ⟨h.start_le_end, h.total, h.start_pos, h.pageEnd, fun g hg => ?_, fun a ha => ?_⟩
    · have hgf : g ≠ f := by
        rintro rfl
        exact hr (Nat.mul_mod_left g 4096) hg
      change (m.machine.pmm.dropFrame (f * 4096)).isUsed g = true
      rw [Pmm.isUsed_dropFrame, h.used g hg, decide_eq_false hgf]
      rfl
    · rw [handed_withoutFrame] at ha
      obtain ⟨-, ⟨⟩⟩ | ⟨-, ha⟩ := update_at_iff.mp ha
      exact h.once a ha

/-! ## The state that `kmain` sets up -/

/-- After `n` calls of `pmm_alloc_frame` in the state of `kmain`: the lowest frames went first. -/
structure Drained (s : Machine) (n : Nat) (m : Memory) : Prop where
  same : m.machine = { kmainInit s with pmm := m.machine.pmm }
  total : m.machine.pmm.totalFramesCount = 32768
  used : ∀ f < 32768, m.machine.pmm.isUsed f = decide (f < 0x201 + n)
  handed : ∀ f, 0x201 ≤ f → f < 0x201 + n → m.handed (f * 4096) = true

theorem Drained.step {s : Machine} {n : Nat} (h : Drained s n m) (hn : 0x201 + n < 32768) :
    Drained s (n + 1) (memStep .allocFrame m) := by
  rcases memStep_allocFrame m with ⟨-, hfull⟩ | ⟨g, hlt, hfree, hlow, hnext⟩
  · have hnone := hfull (0x201 + n) (h.total ▸ hn)
    rw [h.used _ hn, decide_eq_true_iff] at hnone
    omega
  obtain rfl : g = 0x201 + n := by
    rw [h.total] at hlt
    rw [h.used g hlt, decide_eq_false_iff_not] at hfree
    by_contra hne
    have hbelow := hlow (0x201 + n) (by omega)
    rw [h.used _ hn, decide_eq_true_iff] at hbelow
    omega
  rw [hnext]
  refine ⟨?_, h.total, fun f hf => ?_, fun f hlo hhi => ?_⟩
  · rw [withFrame, h.same]
  · change (m.machine.pmm.takeFrame ((0x201 + n) * 4096)).isUsed f = _
    rw [Pmm.isUsed_takeFrame, h.used f hf, ← Bool.decide_or]
    congr 1
    rw [eq_iff_iff]
    omega
  · rw [handed_withFrame (by omega)]
    by_cases hf : f = 0x201 + n
    · rw [hf, update_self]
    · rw [update_of_ne (by omega)]
      exact h.handed f hlo (by omega)

end CfKernel.Mm
