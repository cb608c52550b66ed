import CfKernel.Mm.Chunks

/-!
# Growth of the heap

`expand_heap_by_pages` takes pages at the end of the heap one by one and keeps those it got when it
fails. `request_space` puts one new chunk into the pages, behind all others. A page which the
kernel cannot reach stops the call with a page fault.
-/

namespace CfKernel.Mm

open Lib Lib.Eff Set

structure HeapInv (s : Machine) (cs : List Chunk) : Prop extends Chunks s cs where
  merged : Merged cs

/-- From `s` to `t` the heap may have grown by some pages, and apart from them only bytes in `A`
have changed. -/
structure Moved (A : Set Nat) (s t : Machine) : Prop where
  same : t = { s with
    mem := t.mem
    pmm := t.pmm
    heap.base := t.heap.base
    heap.endAddr := t.heap.endAddr }
  whole : ∃ k, t.heap.endAddr = s.heap.endAddr + 4096 * k
  eqOn : EqOn t.mem s.mem (A ∪ Ico s.heap.endAddr t.heap.endAddr)ᶜ
  total : t.pmm.totalFramesCount = s.pmm.totalFramesCount
  isUsed : s.heap.endAddr % 4096 = 0 → ∀ f, t.pmm.isUsed f =
    (s.pmm.isUsed f || decide (s.heap.endAddr ≤ f * 4096 ∧ f * 4096 < t.heap.endAddr))

/-- A page fault, which takes a heap that may grow beyond what the kernel can reach. -/
def OutOfReach (s : Machine) (e : Stop) (_ : Machine) : Prop :=
  e = .pageFault ∧ s.direct < s.heap.maxAddr

variable {s t u : Machine} {cs cs' l₁ l₂ : List Chunk} {c d : Chunk} {n size : Nat}

namespace Moved

variable {A B : Set Nat}

theorem of_eqOn {m : Bytes} (h : EqOn m s.mem Aᶜ) (b : Nat) :
    Moved A s { s with mem := m, heap.base := b } where
  same := rfl
  whole := ⟨0, rfl⟩
  eqOn := h.mono (compl_subset_compl.mpr subset_union_left)
  total := rfl
  isUsed _ f := by
    rw [decide_eq_false (fun h => absurd h.2 (not_lt.mpr h.1)), Bool.or_false]

theorem refl (A : Set Nat) (s : Machine) : Moved A s s :=
  of_eqOn (m := s.mem) (fun _ _ => rfl) s.heap.base

theorem end_le (h : Moved A s t) : s.heap.endAddr ≤ t.heap.endAddr := by
  obtain ⟨k, hk⟩ := h.whole
  omega

theorem mono (h : Moved A s t) (hA : A ⊆ B) : Moved B s t where
  same := h.same
  whole := h.whole
  eqOn := h.eqOn.mono (compl_subset_compl.mpr (union_subset_union_left _ hA))
  total := h.total
  isUsed := h.isUsed

theorem trans (h : Moved A s t) (h' : Moved B t u)
    (hB : B ⊆ A ∪ Ico s.heap.endAddr u.heap.endAddr) : Moved A s u where
  same := by
    rw [h'.same, h.same]
  whole := by
    obtain ⟨j, hj⟩ := h.whole
    obtain ⟨k, hk⟩ := h'.whole
    exact ⟨j + k, by omega⟩
  eqOn := by
    have hle := h.end_le
    have hle' := h'.end_le
    refine (h'.eqOn.mono (compl_subset_compl.mpr (union_subset hB ?_))).trans
      (h.eqOn.mono (compl_subset_compl.mpr (union_subset_union_right A ?_)))
    · exact subset_union_of_subset_right (Ico_subset_Ico_left hle) A
    · exact Ico_subset_Ico_right hle'
  total := h'.total.trans h.total
  isUsed halign f := by
    have hle := h.end_le
    have hle' := h'.end_le
    obtain ⟨k, hk⟩ := h.whole
    rw [h'.isUsed (by omega), h.isUsed halign, Bool.or_assoc, ← Bool.decide_or]
    congr 2
    rw [eq_iff_iff]
    omega

end Moved

/-- The machine after the heap has taken the page at its end. -/
def withPage (s : Machine) : Machine :=
  { s with
    mem := splice s.mem s.heap.endAddr 4096 fun _ => 0
    pmm := (s.pmm.reserveRegion s.heap.endAddr (s.heap.endAddr + 4096)).2
    heap.endAddr := s.heap.endAddr + 4096 }

theorem isUsed_withPage (halign : s.heap.endAddr % 4096 = 0)
    (hlt : s.heap.endAddr + 4096 + 4096 ≤ 2 ^ 32) (f : Nat) :
    (withPage s).pmm.isUsed f = (decide (f * 4096 = s.heap.endAddr) || s.pmm.isUsed f) := by
  obtain ⟨k, hk⟩ : ∃ k, s.heap.endAddr = k * 4096 := ⟨s.heap.endAddr / 4096, by omega⟩
  change (s.pmm.reserveRegion s.heap.endAddr (s.heap.endAddr + 4096)).2.isUsed f = _
  rw [hk, Pmm.reserveRegion_page _ (by omega), Pmm.isUsed_reserveFrame]
  congr 2
  rw [eq_iff_iff]
  omega

theorem moved_withPage (h : Room s.heap s.direct) (hmax : s.heap.endAddr + 4096 ≤ s.heap.maxAddr) :
    Moved ∅ s (withPage s) where
  same := rfl
  whole := ⟨1, rfl⟩
  eqOn a ha := by
    rw [empty_union, mem_compl_iff, mem_Ico] at ha
    change ¬ (s.heap.endAddr ≤ a ∧ a < s.heap.endAddr + 4096) at ha
    change splice s.mem s.heap.endAddr 4096 (fun _ => 0) a = s.mem a
    exact splice_outside (by omega)
  total := Pmm.total_reserveRegion _ _ _
  isUsed halign f := by
    have hlt := h.max_lt
    rw [isUsed_withPage halign (by omega), Bool.or_comm]
    congr 2
    rw [eq_iff_iff]
    change _ ↔ s.heap.endAddr ≤ f * 4096 ∧ f * 4096 < s.heap.endAddr + 4096
    omega

theorem Room.withPage (h : Room s.heap s.direct) (hmax : s.heap.endAddr + 4096 ≤ s.heap.maxAddr)
    (hdir : s.heap.endAddr + 4096 ≤ s.direct) : Room (withPage s).heap (withPage s).direct :=
  ⟨h.page_le_start, h.start_le_end.trans (Nat.le_add_right _ _), hmax, h.max_lt, hdir⟩

theorem expandHeapByPages_turn (hmax : s.heap.endAddr ≤ s.heap.maxAddr)
    (hlt : s.heap.maxAddr + 4096 < 2 ^ 32) (n : Nat) :
    expandHeapByPages (n + 1) s =
      if s.heap.maxAddr < s.heap.endAddr + 4096 then (.ok (.error .heapExhausted), s)
      else if s.heap.endAddr + 4096 ≤ s.direct then expandHeapByPages n (withPage s)
      else (.error .pageFault, { s with pmm := (withPage s).pmm }) := by
  have hend : u32 (s.heap.endAddr + 4096) = s.heap.endAddr + 4096 := u32_of_lt (by omega)
  rw [expandHeapByPages, bind_run, heapVars_run, andThen_ok, hend]
  split_ifs with hmax hdir
  · rfl
  · rw [bind_run, pmmReserveRegion, andThen_ok, bind_ok (memset_run (by exact hdir)),
      bind_run, setHeap, modify_run, andThen_ok]
    rw [hend]
    rfl
  · rw [bind_run, pmmReserveRegion, andThen_ok, bind_run]
    rw [memset, guarded_fault (by exact not_le.mp hdir), andThen_error]
    rfl

theorem expandHeapByPages_ends (h : Room s.heap s.direct) (n : Nat) :
    Ends (expandHeapByPages n) s
      (fun r t => Moved ∅ s t ∧ t.heap.base = s.heap.base ∧ Room t.heap t.direct ∧
        (r = .ok () → t.heap.endAddr = s.heap.endAddr + 4096 * n))
      (OutOfReach s) := by
  induction n generalizing s with
  | zero => exact ends_pure ⟨.refl ∅ s, rfl, h, fun _ => rfl⟩
  | succ n ih =>
    rw [Ends, expandHeapByPages_turn h.end_le_max h.max_lt]
    split_ifs with hmax hdir
    · exact .inl ⟨_, _, rfl, .refl ∅ s, rfl, h, fun hr => by cases hr⟩
    · have hpage := moved_withPage h (not_lt.mp hmax)
      refine (ih (h.withPage (not_lt.mp hmax) hdir)).mono (fun r t ht => ?_) fun _ _ he => he
      obtain ⟨hmoved, hbase, hroom', hend⟩ := ht
      refine ⟨hpage.trans hmoved (empty_subset _), hbase, hroom', fun hr => ?_⟩
      rw [hend hr]
      change s.heap.endAddr + 4096 + 4096 * n = _
      omega
    · exact .inr ⟨_, _, rfl, rfl, by omega⟩

/-! ## A new chunk at the end -/

/-- The links of the last chunk `b` and the new chunk `c`. -/
def joined (m : Bytes) (b c : Nat) : Bytes := putLe32 (putLe32 m (b + 12) c) (c + 8) b

theorem Chunks.appendChunk_run {l : List Chunk} {b : Chunk} (h : Chunks s (l ++ [b]))
    (hdir : c.addr + 16 ≤ s.direct) :
    appendChunk c.addr s = (.ok (), { s with mem := joined s.mem b.addr c.addr }) := by
  have hb := h.header_le (c := b) (by simp)
  have hbase : s.heap.base ≠ 0 := by
    rw [h.base]
    cases l with
    | nil => exact h.addr_pos (c := b) (by simp)
    | cons d l => exact h.addr_pos (c := d) (by simp)
  have hlast : lastChunkFrom (s.heap.endAddr + 1) s.heap.base s = (.ok b.addr, s) := by
    have hlen := h.length_le
    have hin := h.ends_ne_zero
    have hseg := h.linked
    rw [h.base]
    cases l with
    | nil => exact lastChunkFrom_run hseg hin (by simp)
    | cons d l =>
      rw [List.cons_append] at hlen hseg hin
      rw [List.length_cons] at hlen
      rw [List.cons_append, headOr, lastChunkFrom_run hseg hin (by omega), lastOr, lastOr_concat]
  rw [appendChunk, bind_run, heapVars_run, andThen_ok, if_neg hbase, bind_ok hlast, setChunkNext,
    bind_ok (write32_run (by omega)), setChunkPrev, write32_run (by exact hdir.trans' (by omega))]
  rfl

theorem Chunks.append (h : Chunks s cs)
    (hlaid : Laid Chunk.addr Chunk.stop s.heap.startAddr cs c.addr)
    (hstop : c.stop ≤ s.heap.endAddr) (hdr : Header s.mem c 0 0) :
    ∃ t, appendChunk c.addr s = (.ok (), t) ∧ Chunks t (cs ++ [c]) ∧
      t = { s with mem := t.mem, heap.base := t.heap.base } ∧
      EqOn t.mem s.mem (headers (cs ++ [c]))ᶜ := by
  have hroom := h.room
  have hcle : c.addr ≤ c.stop := by
    rw [Chunk.stop]
    omega
  have hlaid' : Laid Chunk.addr Chunk.stop s.heap.startAddr (cs ++ [c]) s.heap.endAddr :=
    laid_append.mpr ⟨c.addr, hlaid, le_rfl, hcle, hstop⟩
  have hlt : c.addr < 2 ^ 32 := by
    have hmax := hroom.end_le_max
    have hmlt := hroom.max_lt
    omega
  rcases List.eq_nil_or_concat cs with rfl | ⟨l, b, rfl⟩
  · refine ⟨{ s with heap.base := c.addr }, ?_, ⟨?_, rfl, ⟨hdr, trivial⟩, hlaid'⟩, rfl,
      fun _ _ => rfl⟩
    · rw [appendChunk, bind_run, heapVars_run, andThen_ok,
        if_pos (show s.heap.base = 0 from h.base)]
      rfl
    · exact ⟨hroom.page_le_start, hroom.start_le_end, hroom.end_le_max, hroom.max_lt,
        hroom.end_le_direct⟩
  · rw [List.concat_eq_append] at h hlaid hlaid' ⊢
    have hb : b ∈ l ++ [b] := by simp
    have hbc : b.stop ≤ c.addr := (hlaid.inside hb).2
    have hblt := h.stop_lt hb
    rw [Chunk.stop] at hblt
    have hdir : c.addr + 16 ≤ s.direct := by
      have hend := hroom.end_le_direct
      rw [Chunk.stop] at hstop
      omega
    obtain ⟨hseg, hdrb, -⟩ := seg_split.mp h.linked
    refine ⟨_, h.appendChunk_run hdir, ⟨hroom, ?_, ?_, hlaid'⟩, rfl, ?_⟩
    · exact h.base.trans (by cases l <;> rfl)
    · refine seg_append.mpr ⟨seg_split.mpr ⟨?_, ?_, trivial⟩, ?_, trivial⟩
      · refine seg_congr hseg fun d hd => ?_
        have hdb := h.laid.around.1 d hd
        have hbb : b.addr ≤ b.stop := by
          rw [Chunk.stop]
          omega
        exact (eqOn_header (o := 8) (by omega) (.inl (hdb.trans (hbb.trans hbc)))).trans
          (eqOn_header (o := 12) (by omega) (.inl hdb))
      · exact (hdrb.setNext hlt).congr (eqOn_header (o := 8) (by omega) (.inl hbc))
      · rw [lastOr_concat]
        exact (hdr.congr (eqOn_header (o := 12) (by omega) (.inr hbc))).setPrev (by omega)
    · exact (eqOn_compl_headers (c := c) (o := 8) (by omega) (by simp)).trans
        (eqOn_compl_headers (c := b) (o := 12) (by omega) (by simp))

/-- The four words that `request_space` writes. -/
def freshHeader (m : Bytes) (a size : Nat) : Bytes :=
  putLe32 (putLe32 (putLe32 (putLe32 m a size) (a + 4) 0) (a + 8) 0) (a + 12) 0

theorem header_fresh {m : Bytes} {a : Nat} (h : size < 2 ^ 32) :
    Header (freshHeader m a size) ⟨a, size, false⟩ 0 0 := by
  refine ⟨?_, ?_, ?_, ?_⟩ <;> dsimp only [freshHeader]
  · rw [le32_putLe32_apart (by omega), le32_putLe32_apart (by omega),
      le32_putLe32_apart (by omega), le32_putLe32, Nat.mod_eq_of_lt h]
  · rw [le32_putLe32_apart (by omega), le32_putLe32_apart (by omega), le32_putLe32]
    decide
  · rw [le32_putLe32_apart (by omega), le32_putLe32, Nat.zero_mod]
  · rw [le32_putLe32, Nat.zero_mod]

theorem eqOn_freshHeader (m : Bytes) (a size : Nat) :
    EqOn (freshHeader m a size) m (Ico a (a + 16))ᶜ := by
  intro x hx
  rw [mem_compl_iff, mem_Ico] at hx
  rw [freshHeader, putLe32_outside (by omega), putLe32_outside (by omega),
    putLe32_outside (by omega), putLe32_outside (by omega)]

/-- A step of the heap that writes headers and new pages only. -/
structure HeapStep (s : Machine) (cs : List Chunk) (t : Machine) (cs' : List Chunk) : Prop where
  inv : HeapInv t cs'
  moved : Moved (headers cs) s t

theorem neededPages_eq (h : size + 4111 < 2 ^ 32) : neededPages size = (size + 4111) / 4096 := by
  rw [neededPages, u32_of_lt (by omega : size + 16 < 2 ^ 32), u32_of_lt (by omega)]

theorem Room.size_lt (h : Room s.heap s.direct) (hfit : size ≤ s.heap.maxAddr - s.heap.startAddr) :
    size + 4111 < 2 ^ 32 := by
  have hpage := h.page_le_start
  have hmax := h.max_lt
  omega

theorem Chunks.of_moved (h : Chunks s cs) (hmoved : Moved ∅ s t) (hbase : t.heap.base = s.heap.base)
    (hroom : Room t.heap t.direct) : Chunks t cs := by
  have hstart : t.heap.startAddr = s.heap.startAddr := by
    rw [hmoved.same]
  refine ⟨hroom, hbase.trans h.base, seg_congr h.linked fun d hd a ha => hmoved.eqOn ?_, ?_⟩
  · have hin := (h.inside hd).2
    rw [Chunk.header, mem_Ico] at ha
    rw [Chunk.stop] at hin
    rw [empty_union, mem_compl_iff, mem_Ico]
    omega
  · rw [hstart]
    exact h.laid.mono le_rfl hmoved.end_le

theorem headers_append : headers (l₁ ++ l₂) = headers l₁ ∪ headers l₂ := by
  ext a
  simp only [headers, List.mem_append, mem_ofPred_eq, mem_union, or_and_right, exists_or]

theorem headers_singleton : headers [c] = c.header := by
  ext a
  simp [headers]

theorem HeapInv.newChunk (h : HeapInv s cs) (size : Nat) (hmoved : Moved ∅ s t)
    (hbase : t.heap.base = s.heap.base) (hroom : Room t.heap t.direct) (hsize : size < 2 ^ 32)
    (hend : s.heap.endAddr + 16 + size ≤ t.heap.endAddr) :
    ∃ u, placeChunk s.heap.endAddr size t = (.ok (), u) ∧
      HeapStep s cs u (cs ++ [⟨s.heap.endAddr, size, false⟩]) := by
  have hdir := hroom.end_le_direct
  have hchunks := h.toChunks.of_moved hmoved hbase hroom
  have hstart : t.heap.startAddr = s.heap.startAddr := by
    rw [hmoved.same]
  have hfar : ∀ d ∈ cs, d.header ⊆ (Ico s.heap.endAddr (s.heap.endAddr + 16))ᶜ := by
    intro d hd a ha
    have hin := (h.inside hd).2
    rw [Chunk.header, mem_Ico] at ha
    rw [Chunk.stop] at hin
    rw [mem_compl_iff, mem_Ico]
    omega
  have hwritten : Chunks { t with mem := freshHeader t.mem s.heap.endAddr size } cs :=
    ⟨hroom, hchunks.base, seg_congr hchunks.linked fun d hd =>
      (eqOn_freshHeader t.mem s.heap.endAddr size).mono (hfar d hd), hchunks.laid⟩
  obtain ⟨u, hrun, hu, hsame, heq⟩ := hwritten.append (c := ⟨s.heap.endAddr, size, false⟩)
    (by rw [hstart]; exact h.laid) hend (header_fresh hsize)
  have hnew : headers (cs ++ [⟨s.heap.endAddr, size, false⟩]) ⊆
      headers cs ∪ Ico s.heap.endAddr t.heap.endAddr := by
    rw [headers_append, headers_singleton]
    exact union_subset_union_right _ (Ico_subset_Ico_right (by dsimp only; omega))
  have hend' : u.heap.endAddr = t.heap.endAddr := by
    rw [hsame]
  have heq' : EqOn u.mem t.mem (headers (cs ++ [⟨s.heap.endAddr, size, false⟩]))ᶜ := by
    refine heq.trans ((eqOn_freshHeader t.mem s.heap.endAddr size).mono ?_)
    rw [compl_subset_compl, headers_append, headers_singleton]
    exact subset_union_right
  have hmoved' := Moved.of_eqOn heq' u.heap.base
  rw [show { t with mem := u.mem, heap.base := u.heap.base } = u from hsame.symm] at hmoved'
  refine ⟨u, ?_, ⟨hu, merged_append.mpr ⟨h.merged, List.isChain_singleton _, ?_⟩⟩, ?_⟩
  · rw [placeChunk, setChunkSize, bind_ok (write32_run (by omega)), setChunkFree,
      bind_ok (write32_run (by dsimp only; omega)), setChunkPrev,
      bind_ok (write32_run (by dsimp only; omega)), setChunkNext,
      bind_ok (write32_run (by dsimp only; omega))]
    exact hrun
  · rintro d - e he ⟨-, hfree⟩
    obtain rfl := Option.some.inj he
    cases hfree
  · refine (hmoved.mono (empty_subset _)).trans hmoved' ?_
    rw [hend']
    exact hnew

/-- Adding a chunk fails when the heap cannot grow far enough; the pages added by then stay. -/
theorem requestSpace_ends (h : HeapInv s cs) (hlt : size + 4111 < 2 ^ 32) :
    Ends (requestSpace size) s
      (fun p t => (p = 0 ∧ HeapStep s cs t cs) ∨
        (p = s.heap.endAddr ∧ HeapStep s cs t (cs ++ [⟨s.heap.endAddr, size, false⟩])))
      (OutOfReach s) := by
  have hpages := neededPages_eq hlt
  refine (expandHeapByPages_ends h.room (neededPages size)).bind fun r t ht => ?_
  obtain ⟨hmoved, hbase, hroom, hend⟩ := ht
  cases r with
  | error e =>
    exact ends_pure (.inl ⟨rfl, ⟨h.toChunks.of_moved hmoved hbase hroom, h.merged⟩,
      hmoved.mono (empty_subset _)⟩)
  | ok _ =>
    have hend := hend rfl
    have hmax := hroom.end_le_max
    have hmlt := hroom.max_lt
    have hchunk : usub t.heap.endAddr (u32 (neededPages size * 4096)) = s.heap.endAddr := by
      rw [u32_of_lt (by omega), usub_of_le (by omega) (by omega)]
      omega
    obtain ⟨u, hrun, hstep⟩ := h.newChunk size hmoved hbase hroom (by omega) (by omega)
    refine Ends.step (heapVars_run t) ?_
    rw [hchunk]
    exact Ends.step hrun (ends_pure (.inr ⟨rfl, hstep⟩))

end CfKernel.Mm
