import Mathlib
import CfKernel.Lib.Run
import CfKernel.Mm.HeapOps

/-!
# Every run of the heap

A session is the machine together with the live pointers, each with the size that was asked for.
Callers allocate, resize and free blocks and write into the blocks they own. In every state that is
reached the chunk list is in order, the live blocks lie in it without overlap, and no call changes
a byte of a block it was not called for.
-/

namespace CfKernel.Mm

open Lib Lib.Eff Set Function

structure Session where
  machine : Machine
  live : Nat → Option Nat

inductive HeapRequest where
  | malloc (size : Nat)
  | calloc (nmemb size : Nat)
  | realloc (ptr newSize : Nat)
  | free (ptr : Nat)
  /-- The owner of a block writes one of its bytes. -/
  | store (ptr index : Nat) (value : UInt8)
  deriving DecidableEq

namespace HeapRequest

def call : HeapRequest → MachineM Nat
  | malloc size => Mm.malloc size
  | calloc nmemb size => Mm.calloc nmemb size
  | realloc ptr newSize => Mm.realloc ptr newSize
  | free ptr => do
    Mm.free ptr
    pure 0
  | store ptr index value => do
    write8 (ptr + index) value
    pure 0

def granted (size p : Nat) (live : Nat → Option Nat) : Nat → Option Nat :=
  if p = 0 then live else update live p (some size)

/-- The live pointers after a call that returned `p`. -/
def record (p : Nat) (live : Nat → Option Nat) : HeapRequest → Nat → Option Nat
  | malloc size => granted size p live
  | calloc nmemb size => granted (nmemb * size) p live
  | realloc ptr newSize =>
    if ptr = 0 then granted newSize p live
    else if newSize = 0 then update live ptr none
    else if p = 0 then live
    else granted newSize p (update live ptr none)
  | free ptr => if ptr = 0 then live else update live ptr none
  | store _ _ _ => live

def target : HeapRequest → Option Nat
  | realloc ptr _ => some ptr
  | free ptr => some ptr
  | store ptr _ _ => some ptr
  | _ => none

/-- Sizes fit the heap's range, and blocks are live. -/
def Allowed (s : Session) : HeapRequest → Prop
  | malloc size => size ≤ s.machine.heap.maxAddr - s.machine.heap.startAddr
  | calloc nmemb size => nmemb * size ≤ s.machine.heap.maxAddr - s.machine.heap.startAddr
  | realloc ptr newSize => (ptr = 0 ∨ s.live ptr ≠ none) ∧
      newSize ≤ s.machine.heap.maxAddr - s.machine.heap.startAddr
  | free ptr => ptr = 0 ∨ s.live ptr ≠ none
  | store ptr index _ => ∃ size, s.live ptr = some size ∧ index < size

end HeapRequest

/-- A call that does not return leaves the live pointers as they are. -/
def heapStep (r : HeapRequest) (s : Session) : Session where
  machine := (r.call s.machine).2
  live := match (r.call s.machine).1 with
    | .ok p => r.record p s.live
    | .error _ => s.live

/-- An allowed call that returns: after a page fault the kernel does not go on. -/
def HeapRequest.Returns (r : HeapRequest) (s : Session) : Prop :=
  r.Allowed s ∧ (r.call s.machine).1.isOk = true

/-- The bytes that belong to pointer `p`, by the size in its header. -/
def payloadOf (m : Bytes) (p : Nat) : Set Nat := Ico p (p + le32 m (p - 16))

/-- Every live pointer is the payload of a chunk in use, which is as large as was asked for. -/
def Blocks (live : Nat → Option Nat) (cs : List Chunk) : Prop :=
  ∀ p n, live p = some n → ∃ c ∈ cs, c.free = false ∧ p = c.payload ∧ n ≤ c.size

structure Sound (s : Session) (cs : List Chunk) : Prop where
  inv : HeapInv s.machine cs
  blocks : Blocks s.live cs

/-- No chunk in use is without its live pointer. -/
structure Exact (s : Session) (cs : List Chunk) : Prop extends Sound s cs where
  owned : ∀ c ∈ cs, c.free = false → s.live c.payload ≠ none

/-- Live blocks other than the target keep their bytes. -/
def Untouched (s : Session) (target : Option Nat) (t : Machine) : Prop :=
  ∀ q n, s.live q = some n → target ≠ some q → EqOn t.mem s.machine.mem (payloadOf s.machine.mem q)

variable {s : Session} {t : Machine} {cs cs' : List Chunk} {c d : Chunk} {n p q : Nat}
  {live : Nat → Option Nat}

theorem Chunks.payloadOf_eq {s : Machine} (h : Chunks s cs) (hc : c ∈ cs) :
    payloadOf s.mem c.payload = c.bytes := by
  obtain ⟨l₁, l₂, rfl⟩ := List.append_of_mem hc
  rw [payloadOf, Chunk.bytes, Chunk.stop, Chunk.payload, Nat.add_sub_cancel,
    (seg_split.mp h.linked).2.1.size]

theorem HeapInv.payload_inj {s : Machine} (h : HeapInv s cs) (hc : c ∈ cs) (hd : d ∈ cs)
    (heq : c.payload = d.payload) : c = d := by
  refine (h.laid.eq_or_apart hc hd).resolve_right fun hle => ?_
  simp only [Chunk.payload, Chunk.stop] at heq hle
  omega

namespace Blocks

theorem mono (h : Blocks live cs) (hsub : ∀ d ∈ cs, d.free = false → d ∈ cs') :
    Blocks live cs' := by
  intro q k hq
  obtain ⟨d, hd, hdu, hqd, hle⟩ := h q k hq
  exact ⟨d, hsub d hd hdu, hdu, hqd, hle⟩

theorem grant (h : Blocks live cs) (hc : c ∈ cs) (huse : c.free = false) (hn : n ≤ c.size) :
    Blocks (update live c.payload (some n)) cs := by
  intro q k hq
  rcases update_at_iff.mp hq with ⟨rfl, ⟨⟩⟩ | ⟨-, hq⟩
  · exact ⟨c, hc, huse, rfl, hn⟩
  · exact h q k hq

theorem drop (h : Blocks live cs) (hsub : ∀ d ∈ cs, d.free = false → d.payload ≠ p → d ∈ cs') :
    Blocks (update live p none) cs' := by
  intro q k hq
  obtain ⟨-, ⟨⟩⟩ | ⟨hqp, hq⟩ := update_at_iff.mp hq
  obtain ⟨d, hd, hdu, rfl, hle⟩ := h q k hq
  exact ⟨d, hsub d hd hdu hqp, hdu, rfl, hle⟩

end Blocks

namespace Exact

section

variable (h : Exact s cs)
include h

theorem untouched (hk : Keeps s.machine cs t cs') {target : Option Nat}
    (hused : ∀ d ∈ cs, d.free = false → target ≠ some d.payload → d ∈ cs') :
    Untouched s target t := by
  intro q n hq hne
  obtain ⟨c, hc, huse, rfl, -⟩ := h.blocks q n hq
  rw [h.inv.payloadOf_eq hc]
  exact hk.bytes c hc huse (hused c hc huse hne)

theorem granted (hm : Mallocs s.machine cs n p t) (target : Option Nat) :
    (∃ cs', Exact ⟨t, HeapRequest.granted n p s.live⟩ cs') ∧ Untouched s target t := by
  cases hm with
  | null hp hk =>
    rw [HeapRequest.granted, if_pos hp]
    exact ⟨⟨cs, ⟨hk.inv, h.blocks⟩, h.owned⟩, h.untouched hk fun d hd _ _ => hd⟩
  | block c cs' hk hp huse hsize hmem hfresh hused =>
    have hkept : ∀ d ∈ cs, d.free = false → d ∈ cs' := fun d hd hdu =>
      (hused d hdu fun hdc => hfresh (hdc ▸ hd)).mpr hd
    rw [HeapRequest.granted, if_neg (hp ▸ c.payload_ne_zero), hp]
    refine ⟨⟨cs', ⟨hk.inv, (h.blocks.mono hkept).grant hmem huse hsize⟩, fun d hd hdu hnone => ?_⟩,
      h.untouched hk fun d hd hdu _ => hkept d hd hdu⟩
    obtain ⟨-, ⟨⟩⟩ | ⟨hne, hnone⟩ := update_at_iff.mp hnone
    exact h.owned d ((hused d hdu fun hdc => hne (hdc ▸ rfl)).mp hd) hdu hnone

theorem freed (hp : s.live p ≠ none) :
    ∃ t, Mm.free p s.machine = (.ok (), t) ∧
      (∃ cs', Exact ⟨t, update s.live p none⟩ cs') ∧ Untouched s (some p) t := by
  obtain ⟨n, hn⟩ := Option.ne_none_iff_exists'.mp hp
  obtain ⟨c, hc, huse, rfl, -⟩ := h.blocks p n hn
  obtain ⟨t, cs', hrun, hk, -, hused⟩ := free_run h.inv hc
  have hkept : ∀ d ∈ cs, d.free = false → d.payload ≠ c.payload → d ∈ cs' :=
    fun d hd hdu hne => (hused d hdu).mpr ⟨hd, fun hdc => hne (hdc ▸ rfl)⟩
  refine ⟨t, hrun, ⟨cs', ⟨hk.inv, h.blocks.drop hkept⟩, fun d hd hdu hnone => ?_⟩,
    h.untouched hk fun d hd hdu hne => hkept d hd hdu fun heq => hne (by rw [heq])⟩
  obtain ⟨hd, hdc⟩ := (hused d hdu).mp hd
  obtain ⟨heq, -⟩ | ⟨-, hnone⟩ := update_at_iff.mp hnone
  · exact hdc (h.inv.payload_inj hd hc heq)
  · exact h.owned d hd hdu hnone

theorem reallocated (hq : s.live q ≠ none) (hn : n ≠ 0)
    (hfit : n ≤ s.machine.heap.maxAddr - s.machine.heap.startAddr) :
    Ends (Mm.realloc q n) s.machine
      (fun p t => (∃ cs', Exact ⟨t, if p = 0 then s.live
          else HeapRequest.granted n p (update s.live q none)⟩ cs') ∧
        Untouched s (some q) t ∧
        ∀ i < min (le32 s.machine.mem (q - 16)) n,
          t.mem ((if p = 0 then q else p) + i) = s.machine.mem (q + i))
      (OutOfReach s.machine) := by
  obtain ⟨k, hk⟩ := Option.ne_none_iff_exists'.mp hq
  obtain ⟨c, hc, huse, rfl, -⟩ := h.blocks q k hk
  have hrest : Blocks (update s.live c.payload none) cs :=
    h.blocks.drop fun d hd _ _ => hd
  have hsize : le32 s.machine.mem (c.payload - 16) = c.size := by
    obtain ⟨l₁, l₂, rfl⟩ := List.append_of_mem hc
    rw [Chunk.payload, Nat.add_sub_cancel]
    exact (seg_split.mp h.inv.linked).2.1.size
  rw [hsize]
  refine (realloc_ends h.inv hc huse hn hfit).mono (fun p t hr => ?_) fun _ _ he => he
  cases hr with
  | inPlace hp hle ht =>
    subst hp ht
    rw [HeapRequest.granted, if_neg c.payload_ne_zero, if_neg c.payload_ne_zero]
    refine ⟨⟨cs, ⟨h.inv, hrest.grant hc huse hle⟩, fun d hd hdu hnone => ?_⟩,
      fun _ _ _ _ _ _ => rfl, fun _ _ => rfl⟩
    obtain ⟨-, ⟨⟩⟩ | ⟨hne, hnone⟩ := update_at_iff.mp hnone
    rw [update_of_ne hne] at hnone
    exact h.owned d hd hdu hnone
  | null hp hkeeps =>
    rw [if_pos hp, if_pos hp]
    refine ⟨⟨cs, ⟨hkeeps.inv, h.blocks⟩, h.owned⟩, h.untouched hkeeps fun d hd _ _ => hd,
      fun i hi => ?_⟩
    exact hkeeps.bytes c hc huse hc (mem_Ico.mpr (by rw [Chunk.stop, Chunk.payload]; omega))
  | block d cs' hkeeps hp huse' hle hmem hfresh hused hlt hcopy =>
    have hkept : ∀ e ∈ cs, e.free = false → e.payload ≠ c.payload → e ∈ cs' :=
      fun e he heu hne => (hused e heu fun hed => hfresh (hed ▸ he)).mpr
        ⟨he, fun hec => hne (hec ▸ rfl)⟩
    have hblocks : Blocks (update s.live c.payload none) cs' := h.blocks.drop hkept
    have hpz : p ≠ 0 := hp ▸ d.payload_ne_zero
    rw [HeapRequest.granted, if_neg hpz, if_neg hpz, if_neg hpz]
    refine ⟨⟨cs', ⟨hkeeps.inv, hp ▸ hblocks.grant hmem huse' hle⟩, fun e he heu hnone => ?_⟩,
      h.untouched hkeeps fun e he heu hne => hkept e he heu fun heq => hne (by rw [heq]),
      fun i hi => hcopy i (by omega)⟩
    obtain ⟨-, ⟨⟩⟩ | ⟨hne, hnone⟩ := update_at_iff.mp hnone
    obtain ⟨he, hec⟩ := (hused e heu fun hed => hne (hed ▸ hp.symm)).mp he
    rw [update_of_ne fun heq => hec (h.inv.payload_inj he hc heq)] at hnone
    exact h.owned e he heu hnone

theorem stored (hq : s.live q = some n) {i : Nat} (hi : i < n) (v : UInt8) :
    ∃ t, write8 (q + i) v s.machine = (.ok (), t) ∧
      (∃ cs', Exact ⟨t, s.live⟩ cs') ∧ Untouched s (some q) t := by
  obtain ⟨c, hc, huse, rfl, hle⟩ := h.blocks q n hq
  have hdir := h.inv.payload_le hc
  have heq : EqOn (update s.machine.mem (c.payload + i) v) s.machine.mem c.bytesᶜ := by
    intro a ha
    refine update_of_ne (fun hai => ha ?_) _ _
    rw [hai, Chunk.bytes, mem_Ico, Chunk.stop, Chunk.payload]
    omega
  obtain ⟨hinv, -, hbytes⟩ := h.inv.keeps_writePayload hc heq
  refine ⟨_, write8_run (by omega), ⟨cs, ⟨hinv, h.blocks⟩, h.owned⟩, fun r k hr hne => ?_⟩
  obtain ⟨d, hd, -, rfl, -⟩ := h.blocks r k hr
  rw [h.inv.payloadOf_eq hd]
  exact hbytes d hd fun hdc => hne (hdc ▸ rfl)

end

end Exact

/-- The bytes of a resized block, at the new place if it has moved. -/
def Carried (s : Session) (r : HeapRequest) (p : Nat) (t : Machine) : Prop :=
  ∀ q n, r = .realloc q n → q ≠ 0 → n ≠ 0 → ∀ i < min (le32 s.machine.mem (q - 16)) n,
    t.mem ((if p = 0 then q else p) + i) = s.machine.mem (q + i)

theorem Exact.call_ends (h : Exact s cs) {r : HeapRequest} (hr : r.Allowed s) :
    Ends r.call s.machine
      (fun p t => (∃ cs', Exact ⟨t, r.record p s.live⟩ cs') ∧ Untouched s r.target t ∧
        Carried s r p t)
      (OutOfReach s.machine) := by
  cases r with
  | malloc size =>
    refine (malloc_ends h.inv (h.inv.room.size_lt hr)).mono (fun p t hm => ?_) fun _ _ he => he
    obtain ⟨hsound, hother⟩ := h.granted hm none
    exact ⟨hsound, hother, fun q n heq => by cases heq⟩
  | calloc nmemb size =>
    refine (calloc_ends h.inv fun _ => hr).mono (fun p t hm => ?_) fun _ _ he => he
    obtain ⟨hsound, hother⟩ := h.granted hm none
    exact ⟨hsound, hother, fun q n heq => by cases heq⟩
  | realloc ptr newSize =>
    obtain ⟨hlive, hfit⟩ := hr
    by_cases hptr : ptr = 0
    · subst hptr
      refine (malloc_ends h.inv (h.inv.room.size_lt hfit)).mono (fun p t hm => ?_) fun _ _ he => he
      obtain ⟨hsound, hother⟩ := h.granted hm (some 0)
      exact ⟨hsound, hother, fun q n heq hq => by cases heq; exact absurd rfl hq⟩
    by_cases hsize : newSize = 0
    · subst hsize
      obtain ⟨t, hrun, hsound, hother⟩ := h.freed (hlive.resolve_left hptr)
      refine Ends.of_ok (a := 0) (t := t) ?_ ⟨?_, hother, fun q n heq _ hn => ?_⟩
      · change Mm.realloc ptr 0 s.machine = _
        rw [Mm.realloc, if_neg hptr, if_pos rfl, bind_ok hrun]
        rfl
      · rw [HeapRequest.record, if_neg hptr, if_pos rfl]
        exact hsound
      · cases heq
        exact absurd rfl hn
    refine (h.reallocated (hlive.resolve_left hptr) hsize hfit).mono (fun p t hm => ?_)
      fun _ _ he => he
    rw [HeapRequest.record, if_neg hptr, if_neg hsize]
    refine ⟨hm.1, hm.2.1, fun q n heq _ _ => ?_⟩
    cases heq
    exact hm.2.2
  | free ptr =>
    by_cases hptr : ptr = 0
    · subst hptr
      exact Ends.of_ok (a := 0) (t := s.machine) rfl
        ⟨⟨cs, h⟩, fun _ _ _ _ _ _ => rfl, fun q n heq => by cases heq⟩
    obtain ⟨t, hrun, hsound, hother⟩ := h.freed (hr.resolve_left hptr)
    refine Ends.of_ok (a := 0) (t := t) (bind_ok hrun) ⟨?_, hother, fun q n heq => by cases heq⟩
    rw [HeapRequest.record, if_neg hptr]
    exact hsound
  | store ptr index value =>
    obtain ⟨n, hn, hlt⟩ := hr
    obtain ⟨t, hrun, hsound, hother⟩ := h.stored hn hlt value
    exact Ends.of_ok (a := 0) (t := t) (bind_ok hrun)
      ⟨hsound, hother, fun q n heq => by cases heq⟩

theorem OutOfReach.lt {m t : Machine} {e : Stop} (h : OutOfReach m e t) :
    m.direct < m.heap.maxAddr := h.2

theorem sound_init (s₀ : Machine) {start max : Nat}
    (hroom : Room ⟨0, start, start, max⟩ s₀.direct) :
    Exact ⟨heapInit start max s₀, fun _ => none⟩ [] where
  inv := ⟨⟨hroom, rfl, trivial, hroom.start_le_end⟩, List.isChain_nil⟩
  blocks p n hp := by cases hp
  owned c hc := by cases hc

theorem sound_reached {s₀ : Machine} {start max : Nat}
    (hroom : Room ⟨0, start, start, max⟩ s₀.direct)
    (hreach : Reach heapStep HeapRequest.Returns ⟨heapInit start max s₀, fun _ => none⟩ s) :
    ∃ cs, Exact s cs := by
  refine hreach.invariant (fun s => ∃ cs, Exact s cs) ⟨[], sound_init s₀ hroom⟩ ?_
  rintro r s ⟨cs, h⟩ ⟨hallowed, hok⟩
  obtain ⟨p, t, hrun⟩ := exists_of_isOk hok
  have hstep : heapStep r s = ⟨t, r.record p s.live⟩ := by
    rw [heapStep, hrun]
  rw [hstep]
  exact ((h.call_ends hallowed).ok hrun).1

/-- The chunk list in order. -/
structure ChunkList (s : Machine) (cs : List Chunk) : Prop where
  head : s.heap.base = headOr Chunk.addr 0 cs
  doublyLinked : Seg Chunk.addr (Header s.mem) 0 cs 0
  increasing : cs.Pairwise fun c d => c.addr < d.addr
  inside : ∀ c ∈ cs, s.heap.startAddr ≤ c.addr ∧ c.stop ≤ s.heap.endAddr
  before_next : cs.Pairwise fun c d => c.stop ≤ d.addr
  not_both_free : cs.IsChain fun c d => ¬ (c.free = true ∧ d.free = true)

theorem HeapInv.chunkList {s : Machine} (h : HeapInv s cs) : ChunkList s cs where
  head := h.base
  doublyLinked := h.linked
  increasing := h.laid.pairwise.imp fun hle => by
    rw [Chunk.stop] at hle
    omega
  inside _ hc := h.inside hc
  before_next := h.laid.pairwise
  not_both_free := h.merged

theorem Sound.disjoint (h : Sound s cs) {k : Nat} (hp : s.live p = some n)
    (hq : s.live q = some k) (hne : p ≠ q) :
    Disjoint (payloadOf s.machine.mem p) (payloadOf s.machine.mem q) := by
  obtain ⟨c, hc, -, rfl, -⟩ := h.blocks p n hp
  obtain ⟨d, hd, -, rfl, -⟩ := h.blocks q k hq
  rw [h.inv.payloadOf_eq hc, h.inv.payloadOf_eq hd, Set.disjoint_left]
  intro a ha hb
  rcases h.inv.laid.eq_or_apart hc hd with rfl | hle
  · exact hne rfl
  · simp only [Chunk.bytes, mem_Ico, Chunk.payload, Chunk.stop] at ha hb hle
    omega

/-- In every reachable state the chunk list is in order and holds the live blocks, which do not
overlap; every allowed call returns unless it needs a page out of the kernel's reach, leaves other
live blocks alone, and carries over the bytes of a block that it resizes. -/
theorem heap_chunks_inOrder {s₀ : Machine} {start max : Nat}
    (hroom : Room ⟨0, start, start, max⟩ s₀.direct)
    (hreach : Reach heapStep HeapRequest.Returns ⟨heapInit start max s₀, fun _ => none⟩ s) :
    (∃ cs, ChunkList s.machine cs ∧ Blocks s.live cs) ∧
    (∀ p n q k, s.live p = some n → s.live q = some k → p ≠ q →
      Disjoint (payloadOf s.machine.mem p) (payloadOf s.machine.mem q)) ∧
    ∀ r : HeapRequest, r.Allowed s →
      (s.machine.heap.maxAddr ≤ s.machine.direct → (r.call s.machine).1.isOk = true) ∧
      ∀ p t, r.call s.machine = (.ok p, t) → Untouched s r.target t ∧ Carried s r p t := by
  obtain ⟨cs, h⟩ := sound_reached hroom hreach
  refine ⟨⟨cs, h.inv.chunkList, h.blocks⟩, fun p n q k hp hq => h.disjoint hp hq,
    fun r hr => ⟨fun hdir => ?_, fun p t hrun => ((h.call_ends hr).ok hrun).2⟩⟩
  rcases h.call_ends hr with ⟨p, t, hrun, -⟩ | ⟨e, t, hrun, he⟩
  · rw [hrun]
    rfl
  · exact absurd he.lt (not_lt.mpr hdir)

/-- A machine with paging off and nothing in memory. -/
def bareMachine : Machine where
  mem _ := 0
  direct := 2 ^ 32
  pmm := ⟨fun _ => 0#32, 0, 0, by decide⟩
  heap := ⟨0, 0, 0, 0⟩
  kernelPd := 0
  activePd := 0

theorem room_bare : Room ⟨0, heapStart, heapStart, heapMax⟩ bareMachine.direct := by
  constructor <;> decide

def freshHeap : Session := ⟨heapInit heapStart heapMax bareMachine, fun _ => none⟩

/-- The kernel's heap with one block of 100 bytes. -/
def oneBlock : Session := heapStep (.malloc 100) freshHeap

theorem returns_freshHeap : HeapRequest.Returns (.malloc 100) freshHeap := by
  refine ⟨?_, by decide +kernel⟩
  change 100 ≤ heapMax - heapStart
  decide

theorem heap_chunks_inOrder_oneBlock :
    oneBlock.live 0x800010 = some 100 ∧
      ∃ cs, ChunkList oneBlock.machine cs ∧ Blocks oneBlock.live cs :=
  ⟨by decide +kernel, (heap_chunks_inOrder room_bare (.step _ .start returns_freshHeap)).1⟩

/-- In every reachable state the chunks in use are those of the live pointers, so a heap whose
blocks have all been freed is a single chunk again. -/
theorem heap_without_leaks {s₀ : Machine} {start max : Nat}
    (hroom : Room ⟨0, start, start, max⟩ s₀.direct)
    (hreach : Reach heapStep HeapRequest.Returns ⟨heapInit start max s₀, fun _ => none⟩ s) :
    ∃ cs, ChunkList s.machine cs ∧
      (∀ p, s.live p ≠ none ↔ ∃ c ∈ cs, c.free = false ∧ p = c.payload) ∧
      ((∀ p, s.live p = none) → cs.length ≤ 1) := by
  obtain ⟨cs, h⟩ := sound_reached hroom hreach
  refine ⟨cs, h.inv.chunkList, fun p => ⟨fun hp => ?_, ?_⟩, fun hnone => ?_⟩
  · obtain ⟨n, hn⟩ := Option.ne_none_iff_exists'.mp hp
    obtain ⟨c, hc, huse, hpc, -⟩ := h.blocks p n hn
    exact ⟨c, hc, huse, hpc⟩
  · rintro ⟨c, hc, huse, rfl⟩
    exact h.owned c hc huse
  · have hfree : ∀ c ∈ cs, c.free = true := fun c hc =>
      eq_true_of_ne_false fun huse => h.owned c hc huse (hnone _)
    -- Two chunks would be neighbours that are both free.
    rcases cs with _ | ⟨c, _ | ⟨d, cs⟩⟩
    · simp
    · simp
    · simpa [hfree] using List.isChain_cons_cons.mp h.inv.merged

theorem heap_without_leaks_oneBlock :
    oneBlock.live 0x800010 = some 100 ∧ ∃ cs, ChunkList oneBlock.machine cs ∧
      ∀ p, oneBlock.live p ≠ none ↔ ∃ c ∈ cs, c.free = false ∧ p = c.payload := by
  obtain ⟨cs, hlist, hlive, -⟩ :=
    heap_without_leaks room_bare (.step _ .start returns_freshHeap)
  exact ⟨by decide +kernel, cs, hlist, hlive⟩

end CfKernel.Mm
