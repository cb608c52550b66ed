import CfKernel.Mm.HeapGrow

/-!
# What the heap functions do

One specification for each of `malloc`, `free`, `calloc` and `realloc`, in terms of the chunks in
use: which of them come and go, and that the payloads of the others keep their bytes. A call that
needs a page which the kernel cannot reach stops with a page fault; every other call returns.
-/

namespace CfKernel.Mm

open Lib Lib.Eff Set

variable {s t u : Machine} {cs cs' l₁ l₂ : List Chunk} {c d : Chunk} {n : Nat} {m : Bytes}

/-- What a caller sees of every heap function: memory outside the heap is as before, and so are
the payloads that stay in use. -/
structure Keeps (s : Machine) (cs : List Chunk) (t : Machine) (cs' : List Chunk) : Prop where
  inv : HeapInv t cs'
  moved : Moved (Ico s.heap.startAddr s.heap.endAddr) s t
  bytes : ∀ d ∈ cs, d.free = false → d ∈ cs' → EqOn t.mem s.mem d.bytes

theorem Keeps.refl (h : HeapInv s cs) : Keeps s cs s cs := ⟨h, .refl _ s, fun _ _ _ _ _ _ => rfl⟩

theorem Chunks.headers_subset_range (h : Chunks s cs) :
    headers cs ⊆ Ico s.heap.startAddr s.heap.endAddr := by
  rintro a ⟨d, hd, ha⟩
  obtain ⟨hlo, hhi⟩ := h.inside hd
  rw [Chunk.header, mem_Ico] at ha
  rw [Chunk.stop] at hhi
  rw [mem_Ico]
  omega

theorem Chunks.bytes_subset_range (h : Chunks s cs) (hd : d ∈ cs) :
    d.bytes ⊆ Ico s.heap.startAddr s.heap.endAddr := by
  intro a ha
  obtain ⟨hlo, hhi⟩ := h.inside hd
  rw [Chunk.bytes, Chunk.payload, mem_Ico] at ha
  rw [mem_Ico]
  omega

theorem HeapStep.keeps (h : HeapStep s cs t cs') (hinv : HeapInv s cs) : Keeps s cs t cs' where
  inv := h.inv
  moved := h.moved.mono hinv.headers_subset_range
  bytes d hd _ _ := by
    refine h.moved.eqOn.mono fun a ha => ?_
    have hrange := hinv.bytes_subset_range hd ha
    have hoff := hinv.bytes_subset hd ha
    rw [mem_Ico] at hrange
    rw [mem_compl_iff, mem_union, mem_Ico, not_or]
    exact ⟨hoff, by omega⟩

theorem Keeps.trans {cs₁ cs₂ : List Chunk} (h : Keeps s cs t cs₁) (h' : Keeps t cs₁ u cs₂)
    (hmid : ∀ d ∈ cs, d.free = false → d ∈ cs₂ → d ∈ cs₁) : Keeps s cs u cs₂ where
  inv := h'.inv
  moved := by
    have hle' := h'.moved.end_le
    refine h.moved.trans h'.moved fun a ha => ?_
    rw [show t.heap.startAddr = s.heap.startAddr by rw [h.moved.same], mem_Ico] at ha
    rw [mem_union, mem_Ico, mem_Ico]
    omega
  bytes d hd huse hd₂ :=
    (h'.bytes d (hmid d hd huse hd₂) huse hd₂).trans (h.bytes d hd huse (hmid d hd huse hd₂))

theorem HeapInv.writePayload (h : HeapInv s cs) (hc : c ∈ cs)
    (heq : EqOn m s.mem c.bytesᶜ) : HeapInv { s with mem := m } cs := by
  have hoff : ∀ d ∈ cs, d.header ⊆ c.bytesᶜ := fun d hd a ha hb =>
    h.bytes_subset hc hb ⟨d, hd, ha⟩
  exact ⟨⟨h.room, h.base, seg_congr h.linked fun d hd => heq.mono (hoff d hd), h.laid⟩, h.merged⟩

theorem HeapInv.keeps_writePayload (h : HeapInv s cs) (hc : c ∈ cs) (heq : EqOn m s.mem c.bytesᶜ) :
    HeapInv { s with mem := m } cs ∧
      Moved (Ico s.heap.startAddr s.heap.endAddr) s { s with mem := m } ∧
      ∀ d ∈ cs, d ≠ c → EqOn m s.mem d.bytes := by
  refine ⟨h.writePayload hc heq, .of_eqOn ?_ s.heap.base, fun d hd hne => heq.mono ?_⟩
  · exact heq.mono (compl_subset_compl.mpr (h.bytes_subset_range hc))
  · intro a ha hb
    rcases h.laid.eq_or_apart hd hc with rfl | hle
    · exact hne rfl
    · simp only [Chunk.bytes, mem_Ico, Chunk.payload, Chunk.stop] at ha hb hle
      omega

theorem merged_use (h : Merged (l₁ ++ c :: l₂)) :
    Merged (l₁ ++ { c with free := false } :: l₂) := by
  obtain ⟨h₁, h₂, hlast⟩ := merged_append.mp h
  obtain ⟨hhead, hm⟩ := merged_cons.mp h₂
  refine merged_append.mpr ⟨h₁, merged_cons.mpr ⟨fun d _ hboth => ?_, hm⟩, fun d _ e he hboth => ?_⟩
  · cases hboth.1
  · obtain rfl := Option.some.inj he
    cases hboth.2

theorem headers_mark {b : Bool} :
    headers (l₁ ++ { c with free := b } :: l₂) = headers (l₁ ++ c :: l₂) := by
  have hcons : ∀ e : Chunk, headers (e :: l₂) = e.header ∪ headers l₂ := fun e => by
    rw [← headers_singleton, ← headers_append, List.singleton_append]
  rw [headers_append, headers_append, hcons, hcons]
  rfl

/-- A chunk has a header of 16 bytes, so it is not in the list twice. -/
theorem Chunks.notMem_around (h : Chunks s (l₁ ++ c :: l₂)) (d : Chunk) (hd : d.addr = c.addr) :
    d ∉ l₁ ∧ d ∉ l₂ := by
  obtain ⟨hbefore, hbehind⟩ := h.laid.around
  constructor
  · intro hmem
    have hle := hbefore d hmem
    rw [Chunk.stop] at hle
    omega
  · intro hmem
    have hle := hbehind d hmem
    rw [Chunk.stop] at hle
    omega

/-- What `malloc n` did: nothing but growing the heap, or a chunk `c` came into use. -/
inductive Mallocs (s : Machine) (cs : List Chunk) (n p : Nat) (t : Machine) : Prop
  | null (hp : p = 0) (hkeeps : Keeps s cs t cs)
  | block (c : Chunk) (cs' : List Chunk) (hkeeps : Keeps s cs t cs') (hp : p = c.payload)
      (huse : c.free = false) (hsize : n ≤ c.size) (hmem : c ∈ cs') (hfresh : c ∉ cs)
      (hused : ∀ d, d.free = false → d ≠ c → (d ∈ cs' ↔ d ∈ cs))

theorem malloc_ends (h : HeapInv s cs) (hlt : n + 4111 < 2 ^ 32) :
    Ends (malloc n) s (fun p t => Mallocs s cs n p t) (OutOfReach s) := by
  rw [malloc]
  split_ifs with hzero
  · exact ends_pure (.null rfl (.refl h))
  rcases h.findFreeChunk_cases n with ⟨hrun, -⟩ | ⟨l₁, c, l₂, rfl, hfree, hsize, hrun⟩
  · refine Ends.step hrun ?_
    rw [if_neg (by decide)]
    refine (requestSpace_ends h hlt).bind fun p t ht => ?_
    rcases ht with ⟨rfl, hstep⟩ | ⟨rfl, hstep⟩
    · rw [if_pos rfl]
      exact ends_pure (.null rfl (hstep.keeps h))
    · have hroom := h.room
      have hnew := hstep.inv.stop_lt (c := ⟨s.heap.endAddr, n, false⟩) (by simp)
      rw [Chunk.stop] at hnew
      dsimp only at hnew
      have hpage := hroom.page_le_start
      have hstart := hroom.start_le_end
      rw [if_neg (by omega), u32_of_lt (by omega)]
      refine ends_pure (.block ⟨s.heap.endAddr, n, false⟩ _ (hstep.keeps h) rfl rfl le_rfl
        (by simp) ?_ ?_)
      · intro hmem
        have hin := (h.inside hmem).2
        rw [Chunk.stop] at hin
        dsimp only at hin
        omega
      · intro d _ hd
        simp [hd]
  · refine Ends.step hrun ?_
    rw [if_pos (h.addr_pos (by simp))]
    obtain ⟨hmark, hchunks, heq⟩ := h.toChunks.mark (v := 0) (by decide)
    have hlt := h.stop_lt (c := c) (by simp)
    rw [Chunk.stop] at hlt
    rw [u32_of_lt (by omega)]
    have hstep : HeapStep s (l₁ ++ c :: l₂) { s with mem := putLe32 s.mem (c.addr + 4) 0 }
        (l₁ ++ { c with free := false } :: l₂) :=
      ⟨⟨hchunks, merged_use h.merged⟩, .of_eqOn heq s.heap.base⟩
    refine Ends.step hmark (ends_pure (.block { c with free := false }
      (l₁ ++ { c with free := false } :: l₂) (hstep.keeps h) rfl rfl hsize (by simp) ?_ ?_))
    · have hout := h.toChunks.notMem_around { c with free := false } rfl
      have hne : ({ c with free := false } : Chunk) ≠ c := by
        intro heq
        rw [← heq] at hfree
        cases hfree
      simp [hout.1, hout.2, hne]
    · intro d hd hne
      have hdc : d ≠ c := by
        rintro rfl
        rw [hd] at hfree
        cases hfree
      simp [hne, hdc]

theorem Chunk.payload_ne_zero (c : Chunk) : c.payload ≠ 0 := by
  rw [Chunk.payload]
  omega

theorem Chunks.usub_payload (h : Chunks s cs) (hc : c ∈ cs) : usub c.payload 16 = c.addr := by
  have hlt := h.stop_lt hc
  rw [Chunk.stop] at hlt
  rw [Chunk.payload, usub_of_le (by omega) (by omega), Nat.add_sub_cancel]

theorem free_run (h : HeapInv s cs) (hc : c ∈ cs) :
    ∃ t cs', free c.payload s = (.ok (), t) ∧ Keeps s cs t cs' ∧
      t = { s with mem := t.mem } ∧ ∀ d, d.free = false → (d ∈ cs' ↔ d ∈ cs ∧ d ≠ c) := by
  obtain ⟨l₁, l₂, rfl⟩ := List.append_of_mem hc
  obtain ⟨hmark, hchunks, heq⟩ := h.toChunks.mark (v := 1) (by decide)
  obtain ⟨hm₁, hm₂, -⟩ := merged_append.mp h.merged
  obtain ⟨m₁, c₁, l₃, hnext, hre₁, haddr, hfree₁, hm₃⟩ :=
    hchunks.mergeNext_spec rfl (merged_cons.mp hm₂).2
  obtain ⟨m₂, cs', hprev, hre₂, hmerged⟩ := hre₁.chunks.mergePrev_spec hfree₁ hm₁ hm₃
  have hre := hre₁.trans hre₂
  have hrun : free c.payload s = (.ok (), { s with mem := m₂ }) := by
    rw [free, if_neg c.payload_ne_zero, h.usub_payload hc]
    refine (bind_ok hmark).trans ((bind_ok hnext).trans ?_)
    rw [← hprev, haddr]
  have hstep : HeapStep s (l₁ ++ c :: l₂) { s with mem := m₂ } cs' := by
    refine ⟨⟨hre.chunks, hmerged⟩, .of_eqOn ?_ s.heap.base⟩
    have heq' := hre.eqOn
    rw [headers_mark] at heq'
    exact heq'.trans heq
  refine ⟨_, cs', hrun, hstep.keeps h, rfl, fun d hd => ?_⟩
  obtain ⟨hout₁, hout₂⟩ := h.toChunks.notMem_around c rfl
  have hne : d ≠ { c with free := true } := by
    rintro rfl
    cases hd
  have hafter : d ∈ l₁ ++ { c with free := true } :: l₂ ↔ d ∈ l₁ ∨ d ∈ l₂ := by
    rw [List.mem_append, List.mem_cons, or_iff_right hne]
  refine (hre.used d hd).trans (hafter.trans ⟨?_, ?_⟩)
  · rintro (hmem | hmem)
    · exact ⟨List.mem_append_left _ hmem, fun heq => hout₁ (heq ▸ hmem)⟩
    · exact ⟨List.mem_append_right _ (List.mem_cons_of_mem c hmem),
        fun heq => hout₂ (heq ▸ hmem)⟩
  · rintro ⟨hmem, hdc⟩
    rcases List.mem_append.mp hmem with hmem | hmem
    · exact .inl hmem
    · exact .inr ((List.mem_cons.mp hmem).resolve_left hdc)

theorem Keeps.writePayload (h : Keeps s cs t cs') (hc : c ∈ cs') (hfresh : c ∉ cs)
    (heq : EqOn m t.mem c.bytesᶜ) : Keeps s cs { t with mem := m } cs' := by
  obtain ⟨hinv, hmoved, hbytes⟩ := h.inv.keeps_writePayload hc heq
  refine ⟨hinv, ?_, fun d hd huse hd' => ?_⟩
  · refine h.moved.trans hmoved fun a ha => ?_
    rw [show t.heap.startAddr = s.heap.startAddr by rw [h.moved.same], mem_Ico] at ha
    rw [mem_union, mem_Ico, mem_Ico]
    change _ ∨ s.heap.endAddr ≤ a ∧ a < t.heap.endAddr
    omega
  · have hne : d ≠ c := fun hdc => hfresh (hdc ▸ hd)
    exact (hbytes d hd' hne).trans (h.bytes d hd huse hd')

theorem HeapInv.payload_le (h : HeapInv s cs) (hc : c ∈ cs) : c.payload + c.size ≤ s.direct := by
  have hin := (h.inside hc).2
  have hdir := h.room.end_le_direct
  rw [Chunk.stop] at hin
  rw [Chunk.payload]
  omega

theorem eqOn_splice_payload {src : Bytes} (hn : n ≤ c.size) :
    EqOn (splice m c.payload n src) m c.bytesᶜ := by
  intro a ha
  rw [Chunk.bytes, mem_compl_iff, mem_Ico, Chunk.stop] at ha
  refine splice_outside ?_
  rw [Chunk.payload] at ha ⊢
  omega

theorem calloc_ends {a b : Nat} (h : HeapInv s cs)
    (hfit : a * b < 2 ^ 32 → a * b ≤ s.heap.maxAddr - s.heap.startAddr) :
    Ends (calloc a b) s (fun p t => Mallocs s cs (a * b) p t) (OutOfReach s) := by
  rw [calloc]
  split_ifs with hzero hover
  · exact ends_pure (.null rfl (.refl h))
  · exact ends_pure (.null rfl (.refl h))
  · have hpos : 0 < b := Nat.pos_of_ne_zero (not_or.mp hzero).2
    have hle : a * b ≤ 2 ^ 32 - 1 := (Nat.le_div_iff_mul_le hpos).mp (not_lt.mp hover)
    have hlt : a * b < 2 ^ 32 := by omega
    rw [u32_of_lt hlt]
    refine (malloc_ends h (h.room.size_lt (hfit hlt))).bind fun p t ht => ?_
    cases ht with
    | null hp hkeeps =>
      rw [if_pos hp]
      exact ends_pure (.null rfl hkeeps)
    | block c cs' hkeeps hp huse hsize hmem hfresh hused =>
      have hdir := hkeeps.inv.payload_le hmem
      rw [if_neg (hp ▸ c.payload_ne_zero)]
      refine Ends.step (memset_run (by omega)) (ends_pure ?_)
      refine .block c cs' (hkeeps.writePayload hmem hfresh ?_) hp huse hsize hmem hfresh hused
      rw [hp]
      exact eqOn_splice_payload hsize

/-- What `realloc` of the block `c` to `n` bytes did. -/
inductive Reallocs (s : Machine) (cs : List Chunk) (c : Chunk) (n p : Nat) (t : Machine) : Prop
  | inPlace (hp : p = c.payload) (hsize : n ≤ c.size) (ht : t = s)
  | null (hp : p = 0) (hkeeps : Keeps s cs t cs)
  | block (d : Chunk) (cs' : List Chunk) (hkeeps : Keeps s cs t cs') (hp : p = d.payload)
      (huse : d.free = false) (hsize : n ≤ d.size) (hmem : d ∈ cs') (hfresh : d ∉ cs)
      (hused : ∀ e, e.free = false → e ≠ d → (e ∈ cs' ↔ e ∈ cs ∧ e ≠ c)) (hlt : c.size < n)
      (hcopy : ∀ i < c.size, t.mem (p + i) = s.mem (c.payload + i))

theorem realloc_ends (h : HeapInv s cs) (hc : c ∈ cs) (huse : c.free = false) (hn : n ≠ 0)
    (hfit : n ≤ s.heap.maxAddr - s.heap.startAddr) :
    Ends (realloc c.payload n) s (fun p t => Reallocs s cs c n p t) (OutOfReach s) := by
  have hdir := h.header_le hc
  have hsize : le32 s.mem c.addr = c.size := by
    obtain ⟨l₁, l₂, rfl⟩ := List.append_of_mem hc
    exact (seg_split.mp h.linked).2.1.size
  rw [realloc, if_neg c.payload_ne_zero, if_neg hn, h.usub_payload hc]
  refine Ends.step (read32_run (by omega)) ?_
  rw [hsize]
  split_ifs with hle
  · exact ends_pure (.inPlace rfl hle rfl)
  refine (malloc_ends h (h.room.size_lt hfit)).bind fun p t ht => ?_
  cases ht with
  | null hp hkeeps =>
    rw [if_pos hp]
    exact ends_pure (.null rfl hkeeps)
  | block d cs' hkeeps hp huse' hsize' hmem hfresh hused =>
    subst hp
    have hcd : c ≠ d := fun hcd => hfresh (hcd ▸ hc)
    have hc' : c ∈ cs' := (hused c huse hcd).mpr hc
    have heq : EqOn (splice t.mem d.payload c.size (window t.mem c.payload)) t.mem d.bytesᶜ :=
      eqOn_splice_payload (by omega)
    have hcopied := hkeeps.writePayload hmem hfresh heq
    obtain ⟨u, cs'', hrun, hfree, -, hused'⟩ := free_run hcopied.inv hc'
    have hd'' : d ∈ cs'' := (hused' d huse').mpr ⟨hmem, hcd.symm⟩
    have hdirc := hkeeps.inv.payload_le hc'
    have hdird := hkeeps.inv.payload_le hmem
    rw [if_neg d.payload_ne_zero]
    refine Ends.step (memcpy_run (by omega) hdirc) (Ends.step hrun (ends_pure ?_))
    refine .block d cs'' (hcopied.trans hfree fun e _ he he'' => ((hused' e he).mp he'').1) rfl huse'
      hsize' hd'' hfresh (fun e he hne => ?_) (by omega) fun i hi => ?_
    · rw [hused' e he, hused e he hne]
    · -- the copy is in place when the old block is freed
      have hin : d.payload + i ∈ d.bytes := mem_Ico.mpr (by rw [Chunk.stop, Chunk.payload]; omega)
      have hin' : c.payload + i ∈ c.bytes := mem_Ico.mpr (by rw [Chunk.stop, Chunk.payload]; omega)
      rw [hfree.bytes d hmem huse' hd'' hin]
      exact (splice_at_add hi).trans (hkeeps.bytes c hc huse hc' hin')

end CfKernel.Mm
