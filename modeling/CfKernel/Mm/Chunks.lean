import CfKernel.Lib.Linked
import CfKernel.Mm.Heap

/-!
# The chunk list

`Chunks s cs` says that the memory of `s` holds the chunks `cs`: the headers are linked both ways,
the chunks lie one behind the other inside the heap, and there may be a gap behind each of them.
The operations on the list are described by what they do to `cs`. All of them write headers only,
so payloads keep their bytes.
-/

namespace CfKernel.Mm

open Lib Lib.Eff Set

structure Chunk where
  addr : Nat
  size : Nat
  free : Bool
  deriving DecidableEq

namespace Chunk

def payload (c : Chunk) : Nat := c.addr + 16

def stop (c : Chunk) : Nat := c.addr + 16 + c.size

def header (c : Chunk) : Set Nat := Ico c.addr (c.addr + 16)

def bytes (c : Chunk) : Set Nat := Ico c.payload c.stop

end Chunk

structure Header (m : Bytes) (c : Chunk) (prev next : Nat) : Prop where
  size : le32 m c.addr = c.size
  free : le32 m (c.addr + 4) ≠ 0 ↔ c.free = true
  prev : le32 m (c.addr + 8) = prev
  next : le32 m (c.addr + 12) = next

/-- The heap's range: the first page is not the null page, and no address computed from the range
wraps. -/
structure Room (h : HeapVars) (direct : Nat) : Prop where
  page_le_start : 4096 ≤ h.startAddr
  start_le_end : h.startAddr ≤ h.endAddr
  end_le_max : h.endAddr ≤ h.maxAddr
  max_lt : h.maxAddr + 4096 < 2 ^ 32
  end_le_direct : h.endAddr ≤ direct

structure Chunks (s : Machine) (cs : List Chunk) : Prop where
  room : Room s.heap s.direct
  base : s.heap.base = headOr Chunk.addr 0 cs
  linked : Seg Chunk.addr (Header s.mem) 0 cs 0
  laid : Laid Chunk.addr Chunk.stop s.heap.startAddr cs s.heap.endAddr

variable {s t : Machine} {cs l l₁ l₂ : List Chunk} {c d : Chunk} {m m' : Bytes} {p n v : Nat}

theorem le32_putLe32_apart {a b : Nat} (h : a + 4 ≤ b ∨ b + 4 ≤ a) :
    le32 (putLe32 m a v) b = le32 m b :=
  le32_congr fun k hk => putLe32_outside (by omega)

theorem eqOn_putLe32 {a : Nat} {A : Set Nat} (h : ∀ x ∈ A, x < a ∨ a + 4 ≤ x) :
    EqOn (putLe32 m a v) m A :=
  fun x hx => putLe32_outside (h x hx)

namespace Header

section

variable (h : Header m c p n)
include h

theorem congr (heq : EqOn m' m c.header) : Header m' c p n := by
  have hword : ∀ o, o + 4 ≤ 16 → le32 m' (c.addr + o) = le32 m (c.addr + o) := by
    intro o ho
    refine le32_congr fun k hk => heq ?_
    exact mem_Ico.mpr (by omega)
  exact ⟨(hword 0 (by omega)).trans h.size, by rw [hword 4 (by omega)]; exact h.free,
    (hword 8 (by omega)).trans h.prev, (hword 12 (by omega)).trans h.next⟩

theorem setSize (hv : v < 2 ^ 32) : Header (putLe32 m c.addr v) { c with size := v } p n := by
  refine ⟨?_, ?_, ?_, ?_⟩ <;> dsimp only
  · exact (le32_putLe32 m c.addr v).trans (Nat.mod_eq_of_lt hv)
  · rw [le32_putLe32_apart (by omega)]
    exact h.free
  · exact (le32_putLe32_apart (by omega)).trans h.prev
  · exact (le32_putLe32_apart (by omega)).trans h.next

theorem setFree (hv : v < 2 ^ 32) :
    Header (putLe32 m (c.addr + 4) v) { c with free := decide (v ≠ 0) } p n := by
  refine ⟨?_, ?_, ?_, ?_⟩ <;> dsimp only
  · exact (le32_putLe32_apart (by omega)).trans h.size
  · rw [le32_putLe32, Nat.mod_eq_of_lt hv, decide_eq_true_iff]
  · exact (le32_putLe32_apart (by omega)).trans h.prev
  · exact (le32_putLe32_apart (by omega)).trans h.next

theorem setPrev (hv : v < 2 ^ 32) : Header (putLe32 m (c.addr + 8) v) c v n := by
  refine ⟨?_, ?_, ?_, ?_⟩
  · exact (le32_putLe32_apart (by omega)).trans h.size
  · rw [le32_putLe32_apart (by omega)]
    exact h.free
  · exact (le32_putLe32 m (c.addr + 8) v).trans (Nat.mod_eq_of_lt hv)
  · exact (le32_putLe32_apart (by omega)).trans h.next

theorem setNext (hv : v < 2 ^ 32) : Header (putLe32 m (c.addr + 12) v) c p v := by
  refine ⟨?_, ?_, ?_, ?_⟩
  · exact (le32_putLe32_apart (by omega)).trans h.size
  · rw [le32_putLe32_apart (by omega)]
    exact h.free
  · exact (le32_putLe32_apart (by omega)).trans h.prev
  · exact (le32_putLe32 m (c.addr + 12) v).trans (Nat.mod_eq_of_lt hv)

end

end Header

theorem seg_congr (h : Seg Chunk.addr (Header m) p l n) (heq : ∀ c ∈ l, EqOn m' m c.header) :
    Seg Chunk.addr (Header m') p l n :=
  h.imp fun c hc _ _ hdr => hdr.congr (heq c hc)

theorem length_mul_le {lo hi : Nat} (h : Laid Chunk.addr Chunk.stop lo l hi) :
    lo + 16 * l.length ≤ hi := by
  induction l generalizing lo with
  | nil => exact h
  | cons c l ih =>
    obtain ⟨hlo, -, h⟩ := h
    have htail := ih h
    rw [Chunk.stop] at htail
    rw [List.length_cons]
    omega

namespace Chunks

section

variable (h : Chunks s cs)
include h

theorem inside (hc : c ∈ cs) : s.heap.startAddr ≤ c.addr ∧ c.stop ≤ s.heap.endAddr :=
  h.laid.inside hc

theorem length_le : cs.length ≤ s.heap.endAddr := by
  have hlen := length_mul_le h.laid
  omega

theorem header_le (hc : c ∈ cs) : c.addr + 16 ≤ s.direct := by
  have hin := (h.inside hc).2
  have hdir := h.room.end_le_direct
  rw [Chunk.stop] at hin
  omega

theorem addr_pos (hc : c ∈ cs) : c.addr ≠ 0 := by
  have hin := (h.inside hc).1
  have hpage := h.room.page_le_start
  omega

theorem stop_lt (hc : c ∈ cs) : c.stop + 4096 ≤ 2 ^ 32 := by
  have hin := (h.inside hc).2
  have hmax := h.room.end_le_max
  have hlt := h.room.max_lt
  omega

end

end Chunks

def headers (cs : List Chunk) : Set Nat := {a | ∃ c ∈ cs, a ∈ c.header}

theorem Chunks.bytes_subset (h : Chunks s cs) (hc : c ∈ cs) : c.bytes ⊆ (headers cs)ᶜ := by
  rintro a ha ⟨d, hd, had⟩
  simp only [Chunk.bytes, Chunk.header, mem_Ico, Chunk.payload, Chunk.stop] at ha had
  rcases h.laid.eq_or_apart hc hd with rfl | hle
  · omega
  · simp only [Chunk.stop] at hle
    omega

theorem eqOn_header {o : Nat} (ho : o + 4 ≤ 16) (h : d.stop ≤ c.addr ∨ c.stop ≤ d.addr) :
    EqOn (putLe32 m (c.addr + o) v) m d.header := by
  refine eqOn_putLe32 fun x hx => ?_
  rw [Chunk.header, mem_Ico] at hx
  rw [Chunk.stop, Chunk.stop] at h
  omega

theorem eqOn_compl_headers {o : Nat} (ho : o + 4 ≤ 16) (hc : c ∈ cs) :
    EqOn (putLe32 m (c.addr + o) v) m (headers cs)ᶜ := by
  refine eqOn_putLe32 fun x hx => ?_
  by_contra hin
  refine hx ⟨c, hc, ?_⟩
  rw [Chunk.header, mem_Ico]
  omega

/-! ## Walks along the list -/

theorem findFreeChunkFrom_spec {size turns : Nat} (hseg : Seg Chunk.addr (Header s.mem) p l 0)
    (hin : ∀ c ∈ l, c.addr ≠ 0 ∧ c.addr + 16 ≤ s.direct) (hlen : l.length < turns) :
    (findFreeChunkFrom size turns (headOr Chunk.addr 0 l) s = (.ok 0, s) ∧
      ∀ c ∈ l, c.free = true → c.size < size) ∨
    ∃ l₁ c l₂, l = l₁ ++ c :: l₂ ∧ c.free = true ∧ size ≤ c.size ∧
      findFreeChunkFrom size turns (headOr Chunk.addr 0 l) s = (.ok c.addr, s) := by
  induction l generalizing p turns with
  | nil =>
    obtain ⟨k, rfl⟩ := Nat.exists_eq_succ_of_ne_zero (by omega : turns ≠ 0)
    exact .inl ⟨rfl, by simp⟩
  | cons c l ih =>
    obtain ⟨k, rfl⟩ := Nat.exists_eq_succ_of_ne_zero (by omega : turns ≠ 0)
    obtain ⟨hdr, hseg⟩ := hseg
    obtain ⟨hne, hdir⟩ := hin c List.mem_cons_self
    have hturn : findFreeChunkFrom size (k + 1) c.addr s =
        (if le32 s.mem (c.addr + 4) ≠ 0 ∧ size ≤ c.size then pure c.addr
          else findFreeChunkFrom size k (headOr Chunk.addr 0 l)) s := by
      rw [findFreeChunkFrom, if_neg hne, chunkFree, bind_ok (read32_run (by omega)),
        chunkSize, bind_ok (read32_run (by omega)), hdr.size]
      split_ifs
      · rfl
      · rw [chunkNext, bind_ok (read32_run (by omega)), hdr.next]
    split_ifs at hturn with hfit
    · exact .inr ⟨[], c, l, rfl, hdr.free.mp hfit.1, hfit.2, hturn⟩
    · rw [List.length_cons] at hlen
      rcases ih hseg (fun d hd => hin d (List.mem_cons_of_mem c hd)) (by omega : l.length < k)
        with ⟨hrun, hsmall⟩ | ⟨l₁, d, l₂, rfl, hfree, hsize, hrun⟩
      · refine .inl ⟨hturn.trans hrun, fun d hd hfree => ?_⟩
        rcases List.mem_cons.mp hd with rfl | hd
        · exact not_le.mp fun hle => hfit ⟨hdr.free.mpr hfree, hle⟩
        · exact hsmall d hd hfree
      · exact .inr ⟨c :: l₁, d, l₂, rfl, hfree, hsize, hturn.trans hrun⟩

theorem lastChunkFrom_run {turns : Nat} (hseg : Seg Chunk.addr (Header s.mem) p (c :: l) 0)
    (hin : ∀ d ∈ c :: l, d.addr ≠ 0 ∧ d.addr + 16 ≤ s.direct) (hlen : l.length < turns) :
    lastChunkFrom turns c.addr s = (.ok (lastOr Chunk.addr 0 (c :: l)), s) := by
  induction l generalizing c p turns with
  | nil =>
    obtain ⟨k, rfl⟩ := Nat.exists_eq_succ_of_ne_zero (by omega : turns ≠ 0)
    have hdir := (hin c List.mem_cons_self).2
    rw [lastChunkFrom, chunkNext, bind_ok (read32_run (by omega)), hseg.1.next]
    rfl
  | cons d l ih =>
    obtain ⟨k, rfl⟩ := Nat.exists_eq_succ_of_ne_zero (by omega : turns ≠ 0)
    obtain ⟨hdr, hseg⟩ := hseg
    have hdir := (hin c List.mem_cons_self).2
    have hin' := fun e he => hin e (List.mem_cons_of_mem c he)
    rw [List.length_cons] at hlen
    rw [lastChunkFrom, chunkNext, bind_ok (read32_run (by omega)), hdr.next, headOr,
      if_neg (hin' d List.mem_cons_self).1]
    exact ih hseg hin' (by omega)

namespace Chunks

theorem ends_ne_zero (h : Chunks s cs) : ∀ c ∈ cs, c.addr ≠ 0 ∧ c.addr + 16 ≤ s.direct :=
  fun _ hc => ⟨h.addr_pos hc, h.header_le hc⟩

theorem findFreeChunk_cases (h : Chunks s cs) (size : Nat) :
    (findFreeChunk size s = (.ok 0, s) ∧ ∀ c ∈ cs, c.free = true → c.size < size) ∨
    ∃ l₁ c l₂, cs = l₁ ++ c :: l₂ ∧ c.free = true ∧ size ≤ c.size ∧
      findFreeChunk size s = (.ok c.addr, s) := by
  have hrun : findFreeChunk size s =
      findFreeChunkFrom size (s.heap.endAddr + 1) (headOr Chunk.addr 0 cs) s := by
    rw [← h.base]
    rfl
  rw [hrun]
  exact findFreeChunkFrom_spec h.linked h.ends_ne_zero (Nat.lt_succ_of_le h.length_le)

/-! ## Changes of the list -/

theorem mark (h : Chunks s (l₁ ++ c :: l₂)) (hv : v < 2 ^ 32) :
    setChunkFree c.addr v s = (.ok (), { s with mem := putLe32 s.mem (c.addr + 4) v }) ∧
    Chunks { s with mem := putLe32 s.mem (c.addr + 4) v }
      (l₁ ++ { c with free := decide (v ≠ 0) } :: l₂) ∧
    EqOn (putLe32 s.mem (c.addr + 4) v) s.mem (headers (l₁ ++ c :: l₂))ᶜ := by
  have hc : c ∈ l₁ ++ c :: l₂ := List.mem_append_right _ List.mem_cons_self
  have hdir := h.header_le hc
  obtain ⟨hbefore, hbehind⟩ := h.laid.around
  obtain ⟨hseg₁, hdr, hseg₂⟩ := seg_split.mp h.linked
  refine ⟨write32_run (by omega), ⟨h.room, ?_, ?_, ?_⟩, ?_⟩
  · exact h.base.trans (by cases l₁ <;> rfl)
  · refine seg_split.mpr ⟨?_, hdr.setFree hv, ?_⟩
    · exact seg_congr hseg₁ fun d hd => eqOn_header (by omega) (.inl (hbefore d hd))
    · exact seg_congr hseg₂ fun d hd => eqOn_header (by omega) (.inr (hbehind d hd))
  · obtain ⟨mid, h₁, hmid⟩ := laid_append.mp h.laid
    exact laid_append.mpr ⟨mid, h₁, hmid⟩
  · exact eqOn_compl_headers (by omega) hc

/-- The new size and forward link of `b` in `absorb b c`. -/
def grown (m : Bytes) (b c next : Nat) : Bytes :=
  putLe32 (putLe32 m b (u32 (le32 m b + (16 + le32 m c)))) (b + 12) next

/-- The memory after `absorb b c`, where `next` is the chunk behind `c`. -/
def absorbed (m : Bytes) (b c next : Nat) : Bytes :=
  if next = 0 then grown m b c next else putLe32 (grown m b c next) (next + 8) b

variable {b : Chunk}

theorem eqOn_grown {c next : Nat} (h : d.stop ≤ b.addr ∨ b.stop ≤ d.addr) :
    EqOn (grown m b.addr c next) m d.header :=
  (eqOn_header (o := 12) (by omega) h).trans (eqOn_header (o := 0) (by omega) h)

section

variable (h : Chunks s (l₁ ++ b :: c :: l₂))
include h

theorem absorb_run :
    absorb b.addr c.addr s =
      (.ok (), { s with mem := absorbed s.mem b.addr c.addr (headOr Chunk.addr 0 l₂) }) := by
  have hb := h.header_le (c := b) (by simp)
  have hc := h.header_le (c := c) (by simp)
  have hbc := h.laid.around.2 c List.mem_cons_self
  obtain ⟨-, -, hdr, -⟩ := seg_split.mp h.linked
  have hnext : le32 (putLe32 s.mem b.addr (u32 (le32 s.mem b.addr + (16 + le32 s.mem c.addr))))
      (c.addr + 12) = headOr Chunk.addr 0 l₂ := by
    rw [Chunk.stop] at hbc
    rw [le32_putLe32_apart (by omega), hdr.next]
  rw [absorb, chunkSize, bind_ok (read32_run (by omega)), chunkSize,
    bind_ok (read32_run (by omega)), setChunkSize, bind_ok (write32_run (by omega)), chunkNext,
    bind_ok (read32_run (by exact hc.trans' (by omega))), setChunkNext]
  rw [hnext, bind_ok (write32_run (by exact hb.trans' (by omega))), absorbed]
  by_cases hz : headOr Chunk.addr 0 l₂ = 0
  · rw [if_neg (not_not_intro hz), if_pos hz]
    rfl
  · rw [if_pos hz, if_neg hz, setChunkPrev]
    cases l₂ with
    | nil => exact absurd rfl hz
    | cons d l₃ =>
      have hd := h.header_le (c := d) (by simp)
      rw [headOr, write32_run (by exact hd.trans' (by omega))]
      rfl

theorem absorb_chunks :
    Chunks { s with mem := absorbed s.mem b.addr c.addr (headOr Chunk.addr 0 l₂) }
      (l₁ ++ { b with size := b.size + (16 + c.size) } :: l₂) := by
  obtain ⟨hbefore, hbehind⟩ := h.laid.around
  obtain ⟨hseg₁, hdrb, hdrc, hseg₂⟩ := seg_split.mp h.linked
  obtain ⟨mid, hlaid₁, hmid, hbb, hbc, hcc, hlaid₂⟩ := laid_append.mp h.laid
  have hsum : b.addr + 16 + (b.size + (16 + c.size)) ≤ c.stop := by
    rw [Chunk.stop] at hbc ⊢
    omega
  have hstop := h.stop_lt (c := c) (by simp)
  have hsize : u32 (le32 s.mem b.addr + (16 + le32 s.mem c.addr)) = b.size + (16 + c.size) := by
    rw [hdrb.size, hdrc.size]
    exact u32_of_lt (by omega)
  have hnextlt : headOr Chunk.addr 0 l₂ < 2 ^ 32 := by
    cases l₂ with
    | nil => decide
    | cons d l₃ =>
      have hd := h.stop_lt (c := d) (by simp)
      rw [Chunk.stop] at hd
      rw [headOr]
      omega
  have hdrb' : Header (grown s.mem b.addr c.addr (headOr Chunk.addr 0 l₂))
      { b with size := b.size + (16 + c.size) } (lastOr Chunk.addr 0 l₁)
      (headOr Chunk.addr 0 l₂) := by
    rw [grown, hsize]
    exact (hdrb.setSize (by omega)).setNext hnextlt
  have hfar : ∀ d ∈ l₂, b.stop ≤ d.addr := fun d hd => hbehind d (List.mem_cons_of_mem c hd)
  have hlaid : Laid Chunk.addr Chunk.stop s.heap.startAddr
      (l₁ ++ { b with size := b.size + (16 + c.size) } :: l₂) s.heap.endAddr := by
    refine laid_append.mpr ⟨mid, hlaid₁, hmid, ?_, hlaid₂.mono hsum le_rfl⟩
    rw [Chunk.stop]
    omega
  refine ⟨h.room, h.base.trans (by cases l₁ <;> rfl), ?_, hlaid⟩
  cases l₂ with
  | nil =>
    refine seg_split.mpr ⟨?_, hdrb', trivial⟩
    exact seg_congr hseg₁ fun d hd => eqOn_grown (.inl (hbefore d hd))
  | cons d l₃ =>
    -- the chunk behind gets `b` as its back link
    have hd : d.addr ≠ 0 := h.addr_pos (by simp)
    obtain ⟨hbd, hd₃⟩ := List.forall_mem_cons.mp hfar
    have hb's : Chunk.stop { b with size := b.size + (16 + c.size) } ≤ d.addr :=
      hsum.trans hlaid₂.1
    have hlt := h.stop_lt (c := b) (by simp)
    rw [Chunk.stop] at hlt
    obtain ⟨hdrd, hseg₃⟩ := hseg₂
    change Seg Chunk.addr (Header (if d.addr = 0 then _ else _)) _ _ _
    rw [if_neg hd]
    refine seg_split.mpr ⟨?_, ?_, ?_, ?_⟩
    · refine seg_congr hseg₁ fun e he => ?_
      have heb := hbefore e he
      exact (eqOn_header (o := 8) (by omega) (.inl (heb.trans (hbb.trans hbd)))).trans
        (eqOn_grown (.inl heb))
    · exact hdrb'.congr (eqOn_header (o := 8) (by omega) (.inl hb's))
    · exact (hdrd.congr (eqOn_grown (.inr hbd))).setPrev (by omega)
    · refine seg_congr hseg₃ fun e he => ?_
      exact (eqOn_header (o := 8) (by omega) (.inr (hlaid₂.2.2.inside he).1)).trans
        (eqOn_grown (.inr (hd₃ e he)))

theorem eqOn_absorbed :
    EqOn (absorbed s.mem b.addr c.addr (headOr Chunk.addr 0 l₂)) s.mem
      (headers (l₁ ++ b :: c :: l₂))ᶜ := by
  have hgrown : EqOn (grown s.mem b.addr c.addr (headOr Chunk.addr 0 l₂)) s.mem
      (headers (l₁ ++ b :: c :: l₂))ᶜ :=
    (eqOn_compl_headers (c := b) (o := 12) (by omega) (by simp)).trans
      (eqOn_compl_headers (c := b) (o := 0) (by omega) (by simp))
  cases l₂ with
  | nil => exact hgrown
  | cons d l₃ =>
    rw [absorbed, headOr, if_neg (h.addr_pos (c := d) (by simp))]
    exact (eqOn_compl_headers (c := d) (o := 8) (by omega) (by simp)).trans hgrown

end

end Chunks

def Merged (cs : List Chunk) : Prop := cs.IsChain fun c d => ¬ (c.free = true ∧ d.free = true)

theorem merged_cons : Merged (c :: l) ↔ (∀ d ∈ l.head?, ¬ (c.free = true ∧ d.free = true)) ∧ Merged l :=
  List.isChain_cons

theorem merged_append :
    Merged (l₁ ++ l₂) ↔ Merged l₁ ∧ Merged l₂ ∧
      ∀ c ∈ l₁.getLast?, ∀ d ∈ l₂.head?, ¬ (c.free = true ∧ d.free = true) :=
  List.isChain_append

/-- From `cs` in `s` to `cs'` with memory `m'`: chunks in use are the same, and only headers were
written. -/
structure Rearranged (s : Machine) (cs : List Chunk) (m' : Bytes) (cs' : List Chunk) : Prop where
  chunks : Chunks { s with mem := m' } cs'
  eqOn : EqOn m' s.mem (headers cs)ᶜ
  headers_subset : headers cs' ⊆ headers cs
  used : ∀ d, d.free = false → (d ∈ cs' ↔ d ∈ cs)

theorem Rearranged.refl (h : Chunks s cs) : Rearranged s cs s.mem cs :=
  ⟨h, fun _ _ => rfl, Subset.rfl, fun _ _ => Iff.rfl⟩

theorem Rearranged.trans {cs₁ cs₂ : List Chunk} (h : Rearranged s cs m cs₁)
    (h' : Rearranged { s with mem := m } cs₁ m' cs₂) : Rearranged s cs m' cs₂ where
  chunks := h'.chunks
  eqOn := (h'.eqOn.mono (compl_subset_compl.mpr h.headers_subset)).trans h.eqOn
  headers_subset := h'.headers_subset.trans h.headers_subset
  used d hd := (h'.used d hd).trans (h.used d hd)

namespace Chunks

variable {b : Chunk}

theorem absorb_spec (h : Chunks s (l₁ ++ b :: c :: l₂)) (hb : b.free = true) (hc : c.free = true) :
    ∃ m', absorb b.addr c.addr s = (.ok (), { s with mem := m' }) ∧
      Rearranged s (l₁ ++ b :: c :: l₂) m'
        (l₁ ++ { b with size := b.size + (16 + c.size) } :: l₂) := by
  refine ⟨_, h.absorb_run, h.absorb_chunks, h.eqOn_absorbed, ?_, fun d hd => ?_⟩
  · rintro a ⟨d, hd, ha⟩
    rcases List.mem_append.mp hd with hd | hd
    · exact ⟨d, List.mem_append_left _ hd, ha⟩
    · rcases List.mem_cons.mp hd with rfl | hd
      · exact ⟨b, by simp, ha⟩
      · exact ⟨d, by simp [hd], ha⟩
  · have hne : ∀ e : Chunk, e.free = true → d ≠ e := by
      rintro e he rfl
      rw [hd] at he
      cases he
    simp only [List.mem_append, List.mem_cons, hne b hb, hne c hc,
      hne { b with size := b.size + (16 + c.size) } hb, false_or]

theorem mergeNext_spec (h : Chunks s (l₁ ++ c :: l₂)) (hc : c.free = true) (hm : Merged l₂) :
    ∃ m' c' l', mergeNext c.addr s = (.ok (), { s with mem := m' }) ∧
      Rearranged s (l₁ ++ c :: l₂) m' (l₁ ++ c' :: l') ∧
      c'.addr = c.addr ∧ c'.free = true ∧ Merged (c' :: l') := by
  have hdir := h.header_le (c := c) (by simp)
  obtain ⟨-, hdr, hseg⟩ := seg_split.mp h.linked
  rw [mergeNext, chunkNext, bind_ok (read32_run (by omega)), hdr.next]
  cases l₂ with
  | nil => exact ⟨s.mem, c, [], rfl, .refl h, rfl, hc, List.isChain_singleton c⟩
  | cons d l₃ =>
    have hd := h.header_le (c := d) (by simp)
    obtain ⟨hhead, hm₃⟩ := merged_cons.mp hm
    rw [headOr, if_neg (h.addr_pos (c := d) (by simp)), chunkFree,
      bind_ok (read32_run (by omega))]
    cases hfree : d.free with
    | false =>
      rw [if_neg (mt hseg.1.free.mp (by rw [hfree]; exact Bool.false_ne_true))]
      refine ⟨s.mem, c, d :: l₃, rfl, .refl h, rfl, hc, merged_cons.mpr ⟨?_, hm⟩⟩
      rintro e he ⟨-, hefree⟩
      obtain rfl := Option.some.inj he
      rw [hfree] at hefree
      cases hefree
    | true =>
      obtain ⟨m', hrun, hre⟩ := h.absorb_spec hc hfree
      rw [if_pos (hseg.1.free.mpr hfree), hrun]
      refine ⟨m', _, l₃, rfl, hre, rfl, hc, merged_cons.mpr ⟨fun e he hboth => ?_, hm₃⟩⟩
      exact hhead e he ⟨hfree, hboth.2⟩

theorem mergePrev_spec (h : Chunks s (l₁ ++ c :: l₂)) (hc : c.free = true) (hm₁ : Merged l₁)
    (hm : Merged (c :: l₂)) : ∃ m' cs', mergePrev c.addr s = (.ok (), { s with mem := m' }) ∧
      Rearranged s (l₁ ++ c :: l₂) m' cs' ∧ Merged cs' := by
  have hdir := h.header_le (c := c) (by simp)
  obtain ⟨hseg, hdr, -⟩ := seg_split.mp h.linked
  rw [mergePrev, chunkPrev, bind_ok (read32_run (by omega)), hdr.prev]
  rcases List.eq_nil_or_concat l₁ with rfl | ⟨l₀, b, rfl⟩
  · exact ⟨s.mem, c :: l₂, rfl, .refl h, hm⟩
  · rw [List.concat_eq_append] at h hseg hm₁ ⊢
    have hb := h.header_le (c := b) (by simp)
    have hdrb := (seg_split.mp hseg).2.1
    obtain ⟨hm₀, -, hlast⟩ := merged_append.mp hm₁
    rw [lastOr_concat, if_neg (h.addr_pos (c := b) (by simp)), chunkFree,
      bind_ok (read32_run (by omega))]
    cases hfree : b.free with
    | false =>
      rw [if_neg (mt hdrb.free.mp (by rw [hfree]; exact Bool.false_ne_true))]
      refine ⟨s.mem, _, rfl, .refl h, merged_append.mpr ⟨hm₁, hm, ?_⟩⟩
      rintro e he d - ⟨hefree, -⟩
      rw [List.getLast?_concat] at he
      obtain rfl := Option.some.inj he
      rw [hfree] at hefree
      cases hefree
    | true =>
      rw [List.append_assoc] at h
      obtain ⟨m', hrun, hre⟩ := h.absorb_spec hfree hc
      rw [if_pos (hdrb.free.mpr hfree), hrun]
      refine ⟨m', _, rfl, by rw [List.append_assoc]; exact hre, ?_⟩
      obtain ⟨hhead, hm₂⟩ := merged_cons.mp hm
      refine merged_append.mpr ⟨hm₀, merged_cons.mpr ⟨fun e he hboth => ?_, hm₂⟩, ?_⟩
      · exact hhead e he ⟨hc, hboth.2⟩
      · rintro e he d hd hboth
        obtain rfl := Option.some.inj hd
        exact hlast e he b rfl ⟨hboth.1, hfree⟩

end Chunks

end CfKernel.Mm
