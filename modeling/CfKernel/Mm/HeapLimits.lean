import CfKernel.Mm.Frames
import CfKernel.Ramfs.File

/-!
# Requests at the limits of the heap

A request that needs more pages than are left below `heap_max_addr` takes all of them before it
fails. The number of pages is computed in 32 bits: sizes within a page and a header of `2 ^ 32` ask
for one page or for none, and are served all the same.
-/

namespace CfKernel.Mm

open Lib Lib.Eff Set

def pagesLeft (h : HeapVars) : Nat := (h.maxAddr - h.endAddr) / 4096

def withPages (n : Nat) (s : Machine) : Machine := withPage^[n] s

/-- The pages that a growth by `n` pages touches can be reached by the kernel. -/
def CanReach (s : Machine) (n : Nat) : Prop :=
  s.heap.endAddr + 4096 * min n (pagesLeft s.heap) ≤ s.direct

variable {s t : Machine} {cs : List Chunk} {n size p : Nat}

section Growth

theorem withPages_heap (n : Nat) (s : Machine) :
    (withPages n s).heap = { s.heap with endAddr := s.heap.endAddr + 4096 * n } := by
  induction n with
  | zero => rfl
  | succ n ih =>
    rw [withPages, Function.iterate_succ_apply']
    change { (withPages n s).heap with endAddr := (withPages n s).heap.endAddr + 4096 } = _
    rw [ih, Nat.mul_succ, Nat.add_assoc]

theorem withPage_end (s : Machine) : (withPage s).heap.endAddr = s.heap.endAddr + 4096 := rfl

theorem withPage_max (s : Machine) : (withPage s).heap.maxAddr = s.heap.maxAddr := rfl

theorem withPage_direct (s : Machine) : (withPage s).direct = s.direct := rfl

theorem pagesLeft_withPage (s : Machine) : pagesLeft (withPage s).heap = pagesLeft s.heap - 1 := by
  rw [pagesLeft, pagesLeft, withPage_end, withPage_max]
  omega

theorem pagesLeft_eq_zero (h : s.heap.maxAddr < s.heap.endAddr + 4096) : pagesLeft s.heap = 0 := by
  rw [pagesLeft]
  omega

theorem pagesLeft_pos (h : s.heap.endAddr + 4096 ≤ s.heap.maxAddr) : 0 < pagesLeft s.heap := by
  rw [pagesLeft]
  omega

theorem canReach_succ (h : s.heap.endAddr + 4096 ≤ s.heap.maxAddr) :
    CanReach s (n + 1) ↔ s.heap.endAddr + 4096 ≤ s.direct ∧ CanReach (withPage s) n := by
  have hleft := pagesLeft_pos h
  rw [CanReach, CanReach, pagesLeft_withPage, withPage_end, withPage_direct]
  obtain ⟨k, hk⟩ : ∃ k, pagesLeft s.heap = k + 1 := ⟨pagesLeft s.heap - 1, by omega⟩
  rw [hk, Nat.add_sub_cancel, Nat.succ_min_succ]
  generalize min n k = j
  omega

theorem expandHeapByPages_run (h : Room s.heap s.direct) (hreach : CanReach s n) :
    expandHeapByPages n s =
      (.ok (if n ≤ pagesLeft s.heap then .ok () else .error .heapExhausted),
        withPages (min n (pagesLeft s.heap)) s) := by
  induction n generalizing s with
  | zero =>
    rw [if_pos (Nat.zero_le _), Nat.zero_min]
    rfl
  | succ n ih =>
    rw [expandHeapByPages_turn h.end_le_max h.max_lt]
    by_cases hmax : s.heap.maxAddr < s.heap.endAddr + 4096
    · rw [if_pos hmax, pagesLeft_eq_zero hmax, if_neg (Nat.not_succ_le_zero n), Nat.min_zero]
      rfl
    · have hleft := pagesLeft_pos (not_lt.mp hmax)
      obtain ⟨hdir, hreach'⟩ := (canReach_succ (not_lt.mp hmax)).mp hreach
      obtain ⟨k, hk⟩ : ∃ k, pagesLeft s.heap = k + 1 := ⟨pagesLeft s.heap - 1, by omega⟩
      rw [if_neg hmax, if_pos hdir, ih (h.withPage (not_lt.mp hmax) hdir) hreach',
        pagesLeft_withPage, hk, Nat.add_sub_cancel, Nat.succ_min_succ, withPages, withPages,
        Function.iterate_succ_apply]
      simp only [Nat.succ_le_succ_iff]

theorem expandHeapByPages_fault (h : Room s.heap s.direct) (hreach : ¬ CanReach s n) :
    ∃ t, expandHeapByPages n s = (.error .pageFault, t) := by
  induction n generalizing s with
  | zero =>
    rw [CanReach, Nat.zero_min] at hreach
    exact absurd h.end_le_direct hreach
  | succ n ih =>
    rw [expandHeapByPages_turn h.end_le_max h.max_lt]
    by_cases hmax : s.heap.maxAddr < s.heap.endAddr + 4096
    · rw [CanReach, pagesLeft_eq_zero hmax, Nat.min_zero] at hreach
      exact absurd h.end_le_direct hreach
    · rw [if_neg hmax]
      split_ifs with hdir
      · exact ih (h.withPage (not_lt.mp hmax) hdir) fun hreach' =>
          hreach ((canReach_succ (not_lt.mp hmax)).mpr ⟨hdir, hreach'⟩)
      · exact ⟨_, rfl⟩

end Growth

section Requests

theorem requestSpace_fault (h : Room s.heap s.direct) (hreach : ¬ CanReach s (neededPages size)) :
    ∃ t, requestSpace size s = (.error .pageFault, t) := by
  obtain ⟨t, hrun⟩ := expandHeapByPages_fault h hreach
  exact ⟨t, bind_error hrun⟩

theorem requestSpace_exhausted (h : Room s.heap s.direct) (hreach : CanReach s (neededPages size))
    (hleft : pagesLeft s.heap < neededPages size) :
    requestSpace size s = (.ok 0, withPages (pagesLeft s.heap) s) := by
  have hrun := expandHeapByPages_run h hreach
  rw [if_neg (not_le.mpr hleft), Nat.min_eq_right hleft.le] at hrun
  exact bind_ok hrun

theorem usub_newChunk {e k : Nat} (h : e + 4096 * k < 2 ^ 32) :
    usub (e + 4096 * k) (u32 (k * 4096)) = e := by
  rw [Nat.mul_comm k, u32_of_lt (by omega), usub_of_le (by omega) h, Nat.add_sub_cancel]

theorem grow_then {grow : MachineM (Except Errno Unit)} {place : HeapVars → MachineM Nat}
    (h : grow s = (.ok (.ok ()), t)) :
    (do
      match ← grow with
      | .error _ => pure 0
      | .ok _ => do
        let h ← heapVars
        place h : MachineM Nat) s = place t.heap t := by
  rw [bind_ok h]
  rfl

theorem requestSpace_granted (h : Room s.heap s.direct) (hreach : CanReach s (neededPages size))
    (hleft : neededPages size ≤ pagesLeft s.heap) :
    requestSpace size s = (do
      placeChunk s.heap.endAddr size
      pure s.heap.endAddr : MachineM Nat) (withPages (neededPages size) s) := by
  have hrun := expandHeapByPages_run h hreach
  rw [if_pos hleft, Nat.min_eq_left hleft] at hrun
  have hmax := h.end_le_max
  have hlt := h.max_lt
  have hend : s.heap.endAddr + 4096 * neededPages size < 2 ^ 32 := by
    rw [pagesLeft] at hleft
    omega
  have hchunk : usub (withPages (neededPages size) s).heap.endAddr
      (u32 (neededPages size * 4096)) = s.heap.endAddr := by
    rw [withPages_heap]
    exact usub_newChunk hend
  refine (grow_then hrun).trans ?_
  rw [hchunk]

/-- Whatever `placeChunk` does, the new chunk starts where the heap ended and the heap has the pages
that were computed. -/
theorem requestSpace_granted_end (h : Room s.heap s.direct)
    (hreach : CanReach s (neededPages size)) (hleft : neededPages size ≤ pagesLeft s.heap)
    (hrun : requestSpace size s = (.ok p, t)) :
    p = s.heap.endAddr ∧ t.heap.endAddr = s.heap.endAddr + 4096 * neededPages size := by
  rw [requestSpace_granted h hreach hleft, bind_run] at hrun
  have hmoves := moves_placeChunk s.heap.endAddr size (withPages (neededPages size) s)
  rcases hplace : placeChunk s.heap.endAddr size (withPages (neededPages size) s) with ⟨_ | _, u⟩
  · rw [hplace, andThen_error] at hrun
    cases hrun
  · rw [hplace, andThen_ok, pure_run] at hrun
    cases hrun
    rw [hplace] at hmoves
    exact ⟨rfl, hmoves.stop.trans (by rw [withPages_heap])⟩

theorem requestSpace_fits (h : HeapInv s cs) (hlt : size + 4111 < 2 ^ 32)
    (hreach : CanReach s (neededPages size)) (hleft : neededPages size ≤ pagesLeft s.heap) :
    ∃ t, requestSpace size s = (.ok s.heap.endAddr, t) := by
  have hrun := expandHeapByPages_run h.room hreach
  rw [if_pos hleft, Nat.min_eq_left hleft] at hrun
  obtain ⟨hmoved, hbase, hroom, hend⟩ :=
    (expandHeapByPages_ends h.room (neededPages size)).ok hrun
  have hend := hend rfl
  have hpages := neededPages_eq hlt
  obtain ⟨u, hplace, -⟩ := h.newChunk size hmoved hbase hroom (by omega) (by omega)
  refine ⟨u, ?_⟩
  rw [requestSpace_granted h.room hreach hleft, bind_ok hplace, pure_run]

end Requests

section Contained

/-- The call returns `NULL`, or a pointer to `size` bytes that lie inside the heap. -/
def Contained (size : Nat) (r : Except Stop Nat × Machine) : Prop :=
  ∃ p t, r = (.ok p, t) ∧ (p = 0 ∨ t.heap.startAddr ≤ p ∧ p + size ≤ t.heap.endAddr)

theorem Mallocs.contained (h : Mallocs s cs size p t) :
    p = 0 ∨ t.heap.startAddr ≤ p ∧ p + size ≤ t.heap.endAddr := by
  cases h with
  | null hp _ => exact .inl hp
  | block c cs' hkeeps hp huse hsize hmem hfresh hused =>
    obtain ⟨hlo, hhi⟩ := hkeeps.inv.inside hmem
    rw [Chunk.stop] at hhi
    rw [hp, Chunk.payload]
    exact .inr ⟨by omega, by omega⟩

theorem contained_of_ok (h : HeapInv s cs) (hlt : size + 4111 < 2 ^ 32)
    (hrun : malloc size s = (.ok p, t)) : Contained size (malloc size s) :=
  ⟨p, t, hrun, ((malloc_ends h hlt).ok hrun).contained⟩

theorem malloc_request (h : HeapInv s cs) (hzero : size ≠ 0)
    (hnone : ∀ c ∈ cs, c.free = true → c.size < size) :
    malloc size s = (do
      let chunk ← requestSpace size
      if chunk = 0 then pure 0 else pure (u32 (chunk + 16)) : MachineM Nat) s := by
  rcases h.findFreeChunk_cases size with ⟨hrun, -⟩ | ⟨l₁, c, l₂, rfl, hfree, hsize, -⟩
  · rw [malloc, if_neg hzero, bind_ok hrun, if_neg (not_not_intro rfl)]
  · exact absurd hsize (not_le.mpr (hnone c (by simp) hfree))

theorem malloc_free (h : HeapInv s cs) {c : Chunk} (hc : c ∈ cs) (hfree : c.free = true)
    (hsize : size ≤ c.size) (hzero : size ≠ 0) :
    ∃ p t, malloc size s = (.ok p, t) ∧ p ≠ 0 ∧ t.heap = s.heap ∧ size + 4111 < 2 ^ 32 := by
  rcases h.findFreeChunk_cases size with ⟨-, hnone⟩ | ⟨l₁, d, l₂, rfl, -, hd, hrun⟩
  · exact absurd hsize (not_le.mpr (hnone c hc hfree))
  · obtain ⟨hmark, -, -⟩ := h.toChunks.mark (v := 0) (by decide)
    have hpos : d.addr ≠ 0 := h.addr_pos (by simp)
    have hstop := h.stop_lt (c := d) (by simp)
    have hstart := (h.inside (c := d) (by simp)).1
    have hpage := h.room.page_le_start
    rw [Chunk.stop] at hstop
    refine ⟨u32 (d.addr + 16), { s with mem := putLe32 s.mem (d.addr + 4) 0 }, ?_, ?_, rfl,
      by omega⟩
    · rw [malloc, if_neg hzero, bind_ok hrun, if_pos hpos, bind_ok hmark, pure_run]
    · rw [u32_of_lt (by omega)]
      omega

theorem neededPages_wrapped (hsize : size < 2 ^ 32) (hwrap : 2 ^ 32 ≤ size + 4111) :
    4096 * neededPages size < 16 + size := by
  have hle : u32 (u32 (size + 16) + 4095) < 8192 := by
    rw [u32, u32]
    omega
  rw [neededPages]
  generalize u32 (u32 (size + 16) + 4095) = w at hle
  omega

theorem malloc_exhausted (h : HeapInv s cs) (hzero : size ≠ 0)
    (hnone : ∀ c ∈ cs, c.free = true → c.size < size) (hreach : CanReach s (neededPages size))
    (hleft : pagesLeft s.heap < neededPages size) :
    malloc size s = (.ok 0, withPages (pagesLeft s.heap) s) := by
  rw [malloc_request h hzero hnone, bind_ok (requestSpace_exhausted h.room hreach hleft),
    if_pos rfl, pure_run]

theorem malloc_contained_request (h : HeapInv s cs) (hsize : size < 2 ^ 32) (hzero : size ≠ 0)
    (hnone : ∀ c ∈ cs, c.free = true → c.size < size) :
    Contained size (malloc size s) ↔ CanReach s (neededPages size) ∧
      (size + 4111 < 2 ^ 32 ∨ pagesLeft s.heap < neededPages size) := by
  have hroom := h.room
  have hmax := hroom.end_le_max
  have hlt := hroom.max_lt
  have hpos : s.heap.endAddr ≠ 0 := by
    have hpage := hroom.page_le_start.trans hroom.start_le_end
    omega
  have hrequest := malloc_request h hzero hnone
  by_cases hreach : CanReach s (neededPages size)
  · by_cases hleft : pagesLeft s.heap < neededPages size
    · exact iff_of_true ⟨0, _, malloc_exhausted h hzero hnone hreach hleft, .inl rfl⟩
        ⟨hreach, .inr hleft⟩
    · by_cases hfits : size + 4111 < 2 ^ 32
      · obtain ⟨t, hspace⟩ := requestSpace_fits h hfits hreach (not_lt.mp hleft)
        have hrun : malloc size s = (.ok (u32 (s.heap.endAddr + 16)), t) := by
          rw [hrequest, bind_ok hspace, if_neg hpos, pure_run]
        exact iff_of_true (contained_of_ok h hfits hrun) ⟨hreach, .inl hfits⟩
      · -- the pages of the heap end before the bytes that were asked for
        refine iff_of_false ?_ fun hboth => hboth.2.elim hfits hleft
        rintro ⟨p, t, hrun, hcont⟩
        rw [hrequest, bind_run] at hrun
        rcases hspace : requestSpace size s with ⟨_ | chunk, u⟩
        · rw [hspace, andThen_error] at hrun
          cases hrun
        · obtain ⟨hchunk, hend⟩ :=
            requestSpace_granted_end hroom hreach (not_lt.mp hleft) hspace
          rw [hspace, andThen_ok, hchunk, if_neg hpos, pure_run] at hrun
          have hshort := neededPages_wrapped hsize (not_lt.mp hfits)
          have hfit : u32 (s.heap.endAddr + 16) = s.heap.endAddr + 16 := u32_of_lt (by omega)
          rw [hfit] at hrun
          cases hrun
          omega
  · refine iff_of_false ?_ fun hboth => hreach hboth.1
    rintro ⟨p, t, hrun, -⟩
    obtain ⟨u, hfault⟩ := requestSpace_fault hroom hreach
    rw [hrequest, bind_error hfault] at hrun
    cases hrun

/-- On a well-formed heap, `malloc` returns `NULL` or bytes inside the heap exactly when a free chunk
serves, or the kernel reaches the pages to be added and their number is not wrapped, unless the
heap is too full even for the wrapped number. -/
theorem malloc_contained_iff (h : HeapInv s cs) (hsize : size < 2 ^ 32) :
    Contained size (malloc size s) ↔ size = 0 ∨ (∃ c ∈ cs, c.free = true ∧ size ≤ c.size) ∨
      CanReach s (neededPages size) ∧
        (size + 4111 < 2 ^ 32 ∨ pagesLeft s.heap < neededPages size) := by
  by_cases hzero : size = 0
  · refine iff_of_true ⟨0, s, ?_, .inl rfl⟩ (.inl hzero)
    rw [malloc, if_pos hzero, pure_run]
  rw [or_iff_right hzero]
  by_cases hfree : ∃ c ∈ cs, c.free = true ∧ size ≤ c.size
  · obtain ⟨c, hc, hcfree, hcsize⟩ := hfree
    obtain ⟨p, t, hrun, -, -, hlt⟩ := malloc_free h hc hcfree hcsize hzero
    exact iff_of_true (contained_of_ok h hlt hrun) (.inl ⟨c, hc, hcfree, hcsize⟩)
  · rw [or_iff_right hfree]
    refine malloc_contained_request h hsize hzero fun c hc hcfree => ?_
    exact not_le.mp fun hle => hfree ⟨c, hc, hcfree, hle⟩

theorem freshHeap_inv : HeapInv freshHeap.machine [] := (sound_init bareMachine room_bare).inv

theorem freshHeap_canReach (n : Nat) : CanReach freshHeap.machine n := by
  have hmin : min n (pagesLeft freshHeap.machine.heap) ≤ 6144 := Nat.min_le_right n 6144
  change 0x800000 + 4096 * min n (pagesLeft freshHeap.machine.heap) ≤ 2 ^ 32
  omega

theorem malloc_contained_iff_hundred : Contained 100 (malloc 100 freshHeap.machine) :=
  (malloc_contained_iff freshHeap_inv (by decide)).mpr
    (.inr (.inr ⟨freshHeap_canReach _, .inl (by decide)⟩))

/-- A truncation of an empty file in RAM to `0xFFFFFFF0` bytes asks for just as many, and gets a
pointer behind the end of a heap without a single page. -/
theorem malloc_overruns :
    (Ramfs.growCapacity 0xFFFFFFF0 32 64 (Ramfs.newFile .file fun _ => none)).1 = .ok 0xFFFFFFF0 ∧
    (malloc 0xFFFFFFF0 freshHeap.machine).1 = .ok 0x800010 ∧
    (malloc 0xFFFFFFF0 freshHeap.machine).2.heap.endAddr = 0x800000 := by
  decide +kernel

end Contained

section Exhausted

inductive Allocation where
  | malloc (size : Nat)
  | calloc (nmemb size : Nat)
  | realloc (ptr newSize : Nat)
  deriving DecidableEq

namespace Allocation

def call : Allocation → MachineM Nat
  | malloc size => Mm.malloc size
  | calloc nmemb size => Mm.calloc nmemb size
  | realloc ptr newSize => Mm.realloc ptr newSize

/-- The bytes that `malloc` is asked for; zero if it is not called. -/
def bytes : Allocation → Nat
  | malloc size => size
  | calloc nmemb size =>
    if nmemb = 0 ∨ size = 0 ∨ (2 ^ 32 - 1) / size < nmemb then 0 else nmemb * size
  | realloc _ newSize => newSize

end Allocation

def Succeeds (size : Nat) (s : Machine) : Prop := ∃ p t, malloc size s = (.ok p, t) ∧ p ≠ 0

/-- The heap is as it was before a request for `n` bytes. -/
structure LeavesHeap (s : Machine) (cs : List Chunk) (n : Nat) (t : Machine) : Prop where
  chunks : HeapInv t cs
  end_eq : t.heap.endAddr = s.heap.endAddr
  frames : ∀ f, t.pmm.isUsed f = s.pmm.isUsed f
  smaller : ∀ k < n, Succeeds k s → Succeeds k t

/-- The function returns nothing but `p`. -/
def Yields (p : Nat) (x : MachineM Nat) : Prop := ∀ s q t, x s = (.ok q, t) → q = p

theorem yields_pure (p : Nat) : Yields p (pure p) := by
  intro s q t h
  cases h
  rfl

variable {x : MachineM Nat}

theorem Yields.after {α : Type} (h : Yields p x) (m : MachineM α) :
    Yields p (m >>= fun _ => x) := by
  intro s q t hrun
  rw [bind_run] at hrun
  rcases hm : m s with ⟨_ | _, u⟩
  · rw [hm, andThen_error] at hrun
    cases hrun
  · rw [hm, andThen_ok] at hrun
    exact h u q t hrun

/-- The callers of `malloc` return `NULL` only if it did, and then do nothing else. -/
theorem null_of_checked {rest : Nat → MachineM Nat} (hrest : ∀ p, Yields p (rest p))
    (h : (do
      let p ← x
      if p = 0 then pure 0 else rest p : MachineM Nat) s = (.ok 0, t)) : x s = (.ok 0, t) := by
  rw [bind_run] at h
  rcases hx : x s with ⟨_ | p, u⟩
  · rw [hx, andThen_error] at h
    cases h
  · rw [hx, andThen_ok] at h
    split_ifs at h with hp
    · rw [pure_run] at h
      cases h
      rw [hp]
    · exact absurd (hrest p u 0 t h).symm hp

theorem Allocation.failed {a : Allocation} (hrun : a.call s = (.ok 0, t)) (hbytes : a.bytes ≠ 0) :
    Mm.malloc a.bytes s = (.ok 0, t) := by
  cases a with
  | malloc size => exact hrun
  | calloc nmemb size =>
    rw [bytes] at hbytes ⊢
    by_cases hskip : nmemb = 0 ∨ size = 0 ∨ (2 ^ 32 - 1) / size < nmemb
    · exact absurd (if_pos hskip) hbytes
    obtain ⟨hnmemb, hsize, hover⟩ := not_or.mp hskip |>.imp_right not_or.mp
    have hpos : 0 < size := Nat.pos_of_ne_zero hsize
    have hle : nmemb * size ≤ 2 ^ 32 - 1 := (Nat.le_div_iff_mul_le hpos).mp (not_lt.mp hover)
    rw [call, Mm.calloc, if_neg (not_or.mpr ⟨hnmemb, hsize⟩), if_neg hover,
      u32_of_lt (by omega)] at hrun
    rw [if_neg hskip]
    exact null_of_checked (fun p => (yields_pure p).after _) hrun
  | realloc ptr newSize =>
    rw [bytes] at hbytes ⊢
    rw [call, Mm.realloc] at hrun
    by_cases hptr : ptr = 0
    · rwa [if_pos hptr] at hrun
    rw [if_neg hptr, if_neg hbytes, bind_run] at hrun
    by_cases hdir : usub ptr 16 + 4 ≤ s.direct
    · rw [chunkSize, read32_run hdir, andThen_ok] at hrun
      split_ifs at hrun with hle
      · rw [pure_run] at hrun
        cases hrun
        exact absurd rfl hptr
      · exact null_of_checked (fun p => ((yields_pure p).after _).after _) hrun
    · rw [chunkSize, read32, guarded_fault (not_le.mp hdir), andThen_error] at hrun
      cases hrun

theorem malloc_null (h : HeapInv s cs) (hzero : size ≠ 0) (hrun : malloc size s = (.ok 0, t)) :
    t = withPages (pagesLeft s.heap) s ∧ pagesLeft s.heap < neededPages size := by
  have hroom := h.room
  by_cases hfree : ∃ c ∈ cs, c.free = true ∧ size ≤ c.size
  · obtain ⟨c, hc, hcfree, hcsize⟩ := hfree
    obtain ⟨p, u, hrun', hp, -⟩ := malloc_free h hc hcfree hcsize hzero
    rw [hrun] at hrun'
    cases hrun'
    exact absurd rfl hp
  have hnone : ∀ c ∈ cs, c.free = true → c.size < size := fun c hc hcfree =>
    not_le.mp fun hle => hfree ⟨c, hc, hcfree, hle⟩
  rw [malloc_request h hzero hnone, bind_run] at hrun
  by_cases hreach : CanReach s (neededPages size)
  · by_cases hleft : pagesLeft s.heap < neededPages size
    · rw [requestSpace_exhausted hroom hreach hleft, andThen_ok, if_pos rfl, pure_run] at hrun
      cases hrun
      exact ⟨rfl, hleft⟩
    · rcases hspace : requestSpace size s with ⟨_ | chunk, u⟩
      · rw [hspace, andThen_error] at hrun
        cases hrun
      · obtain ⟨hchunk, -⟩ := requestSpace_granted_end hroom hreach (not_lt.mp hleft) hspace
        have hmax := hroom.end_le_max
        have hlt := hroom.max_lt
        have hpage := hroom.page_le_start.trans hroom.start_le_end
        have hfit : u32 (s.heap.endAddr + 16) = s.heap.endAddr + 16 := u32_of_lt (by omega)
        rw [hspace, andThen_ok, hchunk, if_neg (by omega), pure_run, hfit] at hrun
        cases hrun
  · obtain ⟨u, hfault⟩ := requestSpace_fault hroom hreach
    rw [hfault, andThen_error] at hrun
    cases hrun

/-- An allocation that fails for want of memory leaves the heap as it was exactly when no page was
left before it. -/
theorem failed_leavesHeap_iff {a : Allocation} (h : HeapInv s cs) (hbytes : a.bytes ≠ 0)
    (hrun : a.call s = (.ok 0, t)) :
    LeavesHeap s cs a.bytes t ↔ s.heap.maxAddr < s.heap.endAddr + 4096 := by
  obtain ⟨ht, -⟩ := malloc_null h hbytes (Allocation.failed hrun hbytes)
  constructor
  · intro hleaves
    have hend := hleaves.end_eq
    rw [ht, withPages_heap] at hend
    have hpages : pagesLeft s.heap = 0 := by
      dsimp only at hend
      omega
    by_contra hmax
    exact (pagesLeft_pos (not_lt.mp hmax)).ne' hpages
  · intro hmax
    rw [pagesLeft_eq_zero hmax] at ht
    obtain rfl : t = s := ht
    exact ⟨h, rfl, fun _ => rfl, fun _ _ hk => hk⟩

/-- The kernel's heap with all its pages and no chunk. -/
def exhaustedHeap : Machine := withPages 6144 freshHeap.machine

theorem exhaustedHeap_end : exhaustedHeap.heap.endAddr = heapMax := by
  rw [exhaustedHeap, withPages_heap]
  rfl

theorem malloc_freshHeap : malloc 0x7FFFFFFF freshHeap.machine = (.ok 0, exhaustedHeap) :=
  malloc_exhausted freshHeap_inv (by decide) (by simp) (freshHeap_canReach _) (by decide +kernel)

theorem exhaustedHeap_inv : HeapInv exhaustedHeap [] := by
  cases (malloc_ends freshHeap_inv (by decide)).ok malloc_freshHeap with
  | null _ hkeeps => exact hkeeps.inv
  | block c _ _ hp => exact absurd hp.symm c.payload_ne_zero

theorem exhaustedHeap_refuses : ¬ Succeeds 100 exhaustedHeap := by
  have hleft : pagesLeft exhaustedHeap.heap = 0 := by
    rw [exhaustedHeap, withPages_heap]
    rfl
  have hreach : CanReach exhaustedHeap (neededPages 100) := by
    rw [CanReach, hleft, Nat.min_zero, Nat.mul_zero, Nat.add_zero]
    exact exhaustedHeap_inv.room.end_le_direct
  have hshort : pagesLeft exhaustedHeap.heap < neededPages 100 := by
    rw [hleft]
    decide
  have hrun := malloc_exhausted exhaustedHeap_inv (by decide) (by simp) hreach hshort
  rintro ⟨p, t, hrun', hp⟩
  rw [hrun] at hrun'
  cases hrun'
  exact hp rfl

theorem failed_leavesHeap_iff_freshHeap :
    LeavesHeap freshHeap.machine [] 0x7FFFFFFF exhaustedHeap ↔ heapMax < heapStart + 4096 :=
  failed_leavesHeap_iff (a := .malloc 0x7FFFFFFF) freshHeap_inv (by decide) malloc_freshHeap

/-- The kernel's heap before its first call: a request for `0x7FFFFFFF` bytes fails and takes every
page along, and one for a hundred bytes, which would have succeeded, fails after it. -/
theorem failed_request_takes_heap : Succeeds 100 freshHeap.machine ∧
    (malloc 0x7FFFFFFF freshHeap.machine).1 = .ok 0 ∧
    (malloc 0x7FFFFFFF freshHeap.machine).2.heap.endAddr = heapMax ∧
    ¬ Succeeds 100 (malloc 0x7FFFFFFF freshHeap.machine).2 := by
  have hleft : neededPages 100 ≤ pagesLeft freshHeap.machine.heap := by decide +kernel
  obtain ⟨t, hspace⟩ :=
    requestSpace_fits freshHeap_inv (by decide) (freshHeap_canReach _) hleft
  have hrun : malloc 100 freshHeap.machine = (.ok 0x800010, t) := by
    rw [malloc_request freshHeap_inv (by decide) (by simp), bind_run, hspace]
    rfl
  refine ⟨⟨_, t, hrun, by decide⟩, ?_⟩
  rw [malloc_freshHeap]
  dsimp only
  exact ⟨rfl, exhaustedHeap_end, exhaustedHeap_refuses⟩

end Exhausted

end CfKernel.Mm
