import CfKernel.Binfmt.Elf
import CfKernel.Mm.TempSlot
import Mathlib.Data.List.GetD

/-!
# The initial stack of a process

`exec_copy_to_user_space` and `exec_build_stack` of `exec.c`. The strings are copied below the top
of the stack, the last one first, and the vector of their addresses below them. Every copy goes
page by page through the temporary slot. On the bytes of the sixteen stack pages, taken as one
stretch, a copy is a splice; the layout is worked out on that stretch.
-/

namespace CfKernel.Sched

open Lib Lib.Eff Mm Binfmt

def userStackTop : Nat := 0xBFFFE000

def userStackSize : Nat := 4096 * 16

/-- `USER_STACK_TOP - USER_STACK_SIZE`. -/
def stackBase : Nat := usub userStackTop userStackSize

/-- The loop of `exec_copy_to_user_space`; `false` is the result -1. -/
def execCopyFrom (pd : Nat) : Nat → Nat → Bytes → Nat → MachineM Bool
  | 0, _, _, _ => Eff.fail .endless
  | n + 1, address, bytes, length =>
    if length = 0 then pure true
    else do
      let page := alignDown address 4096
      let pde ← read32 (pdSlot pd page)
      if pde &&& pagePresent = 0 then pure false
      else do
        let pte ← read32 (ptSlot (tableOf pde) page)
        if pte &&& pagePresent = 0 ∨ pte &&& pageUser = 0 then pure false
        else do
          let offset := address &&& 4095
          let amount := if 4096 - offset > length then length else 4096 - offset
          match ← Binfmt.withFrame pd (tableOf pte) offset amount bytes () with
          | none => pure false
          | some _ =>
            execCopyFrom pd n (u32 (address + amount)) (window bytes amount) (length - amount)

def execCopyToUserSpace (pd address : Nat) (source : Bytes) (length : Nat) : MachineM Bool :=
  execCopyFrom pd (length + 1) address source length

def strBytes (str : List UInt8) : Bytes := fun i => str.getD i 0

/-- One turn of the loop over the arguments, with the address of the copy. -/
def pushString (pd : Nat) (str : List UInt8) (stack : Nat) : MachineM (Option Nat) :=
  if str.length + 1 > 4096 * 4 ∨ str.length + 1 > usub stack stackBase then pure none
  else do
    let stack := usub stack (str.length + 1)
    if ← execCopyToUserSpace pd stack (strBytes str) (str.length + 1) then pure (some stack)
    else pure none

/-- The loop over the arguments, the last one first, with the addresses so far. -/
def pushStrings (pd : Nat) : List (List UInt8) → Nat → List Nat → MachineM (Option (Nat × List Nat))
  | [], stack, userArgv => pure (some (stack, userArgv))
  | str :: rest, stack, userArgv =>
    bindSome (pushString pd str stack) fun stack => pushStrings pd rest stack (stack :: userArgv)

/-- The words of `user_argv`, which has zeroes behind the addresses. -/
def vectorBytes (userArgv : List Nat) : Bytes := fun i => byteOf (userArgv.getD (i / 4) 0) (i % 4)

/-- The vector of addresses below the strings, with what goes to `stack_out` and `argv_out`. -/
def pushVector (pd argc stack : Nat) (userArgv : List Nat) : MachineM (Option (Nat × Nat)) := do
  let stack := alignDown stack 4
  let vectorSize := (argc + 1) * 4
  if vectorSize > usub stack stackBase then pure none
  else do
    let stack := usub stack vectorSize
    if ← execCopyToUserSpace pd stack (vectorBytes userArgv) vectorSize then
      pure (some (alignDown stack 16, stack))
    else pure none

def execBuildStack (pd : Nat) (argc : Int) (argv : Option (List (List UInt8))) :
    MachineM (Option (Nat × Nat)) :=
  if argc < 0 ∨ argc > 32 ∨ argc ≠ 0 ∧ argv = none then pure none
  else
    bindSome (pushStrings pd ((argv.getD []).take argc.toNat).reverse userStackTop [])
      fun (stack, userArgv) => pushVector pd argc.toNat stack userArgv

/-! ## The stack pages -/

/-- The table with the entries of the stack pages. -/
def stackTable (mem : Bytes) (pd : Nat) : Nat := tableOf (pdeAt mem pd stackBase)

/-- The stack pages of `pd` are mapped to frames of their own, and the temporary slot is ready. -/
structure StackSpace (s : Machine) (pd : Nat) (frame : Nat → Nat) : Prop extends SlotReady s pd where
  table : pdeAt s.mem pd stackBase &&& pagePresent ≠ 0
  stackTableReach : stackTable s.mem pd + 4096 ≤ s.direct
  mapped : ∀ i < 16, UserEntry false (pteAt s.mem pd (stackBase + 4096 * i)) ∧
    tableOf (pteAt s.mem pd (stackBase + 4096 * i)) = frame i
  distinct : ∀ i < 16, ∀ j < 16, frame i = frame j → i = j
  frameApart : ∀ i < 16, frame i ≠ stackTable s.mem pd ∧
    ∀ d ∈ slotDirs s pd, frame i ≠ d ∧ frame i ≠ slotTable s.mem d

def stackBytes (frame : Nat → Nat) (mem : Bytes) : Bytes := fun o =>
  mem (frame (o / 4096) + o % 4096)

variable {s t : Machine} {m : Bytes} {pd o i k length : Nat} {frame : Nat → Nat} {src : Bytes}

theorem stackBase_eq : stackBase = 0xBFFEE000 := by decide

theorem dirIndex_stack (h : o < 65536) : dirIndex (stackBase + o) = 0x2FF := by
  have hmask : ∀ x, x &&& 0x3FF = x % 2 ^ 10 := fun x => Nat.and_two_pow_sub_one_eq_mod x 10
  rw [dirIndex, hmask, Nat.shiftRight_eq_div_pow, stackBase_eq]
  omega

theorem tabIndex_stack (h : o < 65536) : tabIndex (stackBase + o) = 0x3EE + o / 4096 := by
  have hmask : ∀ x, x &&& 0x3FF = x % 2 ^ 10 := fun x => Nat.and_two_pow_sub_one_eq_mod x 10
  rw [tabIndex, hmask, Nat.shiftRight_eq_div_pow, stackBase_eq]
  omega

theorem pdeAt_stack (mem : Bytes) (pd : Nat) (h : o < 65536) :
    pdeAt mem pd (stackBase + o) = pageWord mem pd 0x2FF := by
  change pageWord mem pd (dirIndex (stackBase + o)) = _
  rw [dirIndex_stack h]

theorem pdeAt_stackBase (mem : Bytes) (pd : Nat) : pdeAt mem pd stackBase = pageWord mem pd 0x2FF :=
  pdeAt_stack mem pd (o := 0) (by decide)

theorem stackTable_eq (mem : Bytes) (pd : Nat) :
    stackTable mem pd = tableOf (pageWord mem pd 0x2FF) :=
  congrArg tableOf (pdeAt_stackBase mem pd)

theorem pteAt_stack (mem : Bytes) (pd : Nat) (h : o < 65536) :
    pteAt mem pd (stackBase + o) = pageWord mem (stackTable mem pd) (0x3EE + o / 4096) := by
  change pageWord mem (tableOf (pdeAt mem pd (stackBase + o))) (tabIndex (stackBase + o)) = _
  rw [tabIndex_stack h, pdeAt_stack mem pd h, stackTable_eq]

namespace StackSpace

theorem pte (h : StackSpace s pd frame) (ho : o < 65536) :
    UserEntry false (pageWord s.mem (stackTable s.mem pd) (0x3EE + o / 4096)) ∧
      tableOf (pageWord s.mem (stackTable s.mem pd) (0x3EE + o / 4096)) = frame (o / 4096) := by
  have hpage := h.mapped (o / 4096) (by omega)
  rw [pteAt_stack s.mem pd (by omega), Nat.mul_div_cancel_left _ (by decide)] at hpage
  exact hpage

theorem frame_aligned (h : StackSpace s pd frame) (hi : i < 16) :
    frame i % 4096 = 0 ∧ frame i < 2 ^ 32 := by
  obtain ⟨-, htable⟩ := h.mapped i hi
  have hlt : pteAt s.mem pd (stackBase + 4096 * i) < 2 ^ 32 := le32_lt _ _
  rw [← htable]
  refine ⟨tableOf_aligned hlt, ?_⟩
  rw [tableOf_eq hlt]
  omega

theorem stackTable_aligned (s : Machine) (pd : Nat) : stackTable s.mem pd % 4096 = 0 :=
  tableOf_aligned (le32_lt _ _)

section

variable (h : StackSpace s pd frame)
include h

theorem translate_eq (ho : o < 65536) :
    translate s.mem pd (stackBase + o) = frame (o / 4096) + o % 4096 := by
  have hoff : (stackBase + o) % 4096 = o % 4096 := by
    rw [stackBase_eq]
    omega
  rw [Mm.translate, pteAt_stack s.mem pd ho, hoff]
  exact congrArg (· + o % 4096) (h.pte ho).2

theorem offSlot_frame (hi : i < 16) (hk : k < 4096) : OffSlot s pd (frame i + k) := by
  intro d hd
  have hne := ((h.frameApart i hi).2 d hd).2
  have hal := (h.frame_aligned hi).1
  have htab := slotTable_aligned s.mem d
  have hidx := tabIndex_lt tempMapVaddr
  rw [slotAddr]
  omega

/-- A memory in which, outside the slot's entries, only bytes of a stack frame differ. -/
theorem of_copy (hi : i < 16) {offset : Nat} (hfit : offset + length ≤ 4096)
    (hm : ∀ a, OffSlot s pd a → m a = splice s.mem (frame i + offset) length src a) :
    StackSpace { s with mem := m } pd frame := by
  have hal := (h.frame_aligned hi).1
  have hword : ∀ p k, p % 4096 = 0 → k < 1024 → p ≠ frame i →
      (∀ d ∈ slotDirs s pd, ¬ (p = slotTable s.mem d ∧ k = tabIndex tempMapVaddr)) →
      pageWord m p k = pageWord s.mem p k := by
    intro p k hp hk hne hslot
    refine le32_congr fun j hj => ?_
    rw [hm _ (offSlot_word hp hk hslot hj), splice_outside (by omega)]
  have hdir : ∀ d ∈ slotDirs s pd, ∀ k < 1024, pageWord m d k = pageWord s.mem d k :=
    fun d hd k hk => hword d k (h.aligned d hd) hk ((h.frameApart i hi).2 d hd).1.symm
      fun d' hd' hc => h.apart d' hd' d hd hc.1.symm
  have htable : stackTable m pd = stackTable s.mem pd := by
    rw [stackTable_eq, stackTable_eq, hdir pd mem_slotDirs_self _ (by decide)]
  have hpte : ∀ o < 65536, pteAt m pd (stackBase + o) = pteAt s.mem pd (stackBase + o) := by
    intro o ho
    rw [pteAt_stack m pd ho, pteAt_stack s.mem pd ho, htable]
    refine hword _ _ (stackTable_aligned s pd) (by omega) (h.frameApart i hi).1.symm
      fun d hd hc => ?_
    -- the slot's entry is another word of its table than the entries of the stack pages
    have hslot : tabIndex tempMapVaddr = 0x200 := by decide
    omega
  refine
    { toSlotReady := h.toSlotReady.congr fun d hd => hdir d hd _ (dirIndex_lt _)
      table := ?_
      stackTableReach := ?_
      mapped := fun j hj => ?_
      distinct := h.distinct
      frameApart := fun j hj => ?_ }
  · rw [pdeAt_stackBase, hdir pd mem_slotDirs_self _ (by decide), ← pdeAt_stackBase]
    exact h.table
  · rw [htable]
    exact h.stackTableReach
  · rw [hpte _ (by omega)]
    exact h.mapped j hj
  · rw [htable]
    refine ⟨(h.frameApart j hj).1, fun d hd => ⟨((h.frameApart j hj).2 d hd).1, ?_⟩⟩
    rw [slotTable_congr (hdir d hd _ (dirIndex_lt _))]
    exact ((h.frameApart j hj).2 d hd).2

theorem stackBytes_copy (ho : o < 65536) (hfit : o % 4096 + length ≤ 4096)
    (hm : ∀ a, OffSlot s pd a → m a = splice s.mem (frame (o / 4096) + o % 4096) length src a)
    (hk : k < 65536) : stackBytes frame m k = splice (stackBytes frame s.mem) o length src k := by
  have hal := (h.frame_aligned (i := o / 4096) (by omega)).1
  have halk := (h.frame_aligned (i := k / 4096) (by omega)).1
  rw [stackBytes, hm _ (h.offSlot_frame (by omega) (Nat.mod_lt _ (by decide)))]
  by_cases hpage : k / 4096 = o / 4096
  · rw [hpage]
    by_cases hin : o ≤ k ∧ k < o + length
    · rw [splice_inside (by omega) (by omega), splice_inside hin.1 hin.2]
      congr 1
      omega
    · rw [splice_outside (by omega), splice_outside (by omega), stackBytes, hpage]
  · have hne : frame (k / 4096) ≠ frame (o / 4096) := fun heq =>
      hpage (h.distinct _ (by omega) _ (by omega) heq)
    rw [splice_outside (by omega), splice_outside (by omega)]
    rfl

end

theorem and_low (a : Nat) : a &&& 4095 = a % 4096 := Nat.and_two_pow_sub_one_eq_mod a 12

theorem read_entries (h : StackSpace s pd frame) (ho : o < 65536) :
    read32 (pdSlot pd (alignDown (stackBase + o) 4096)) s = (.ok (pageWord s.mem pd 0x2FF), s) ∧
      read32 (ptSlot (stackTable s.mem pd) (alignDown (stackBase + o) 4096)) s =
        (.ok (pageWord s.mem (stackTable s.mem pd) (0x3EE + o / 4096)), s) := by
  have hpage : alignDown (stackBase + o) 4096 = stackBase + o / 4096 * 4096 := by
    rw [alignDown_page (by rw [stackBase_eq]; omega), stackBase_eq]
    omega
  have hlt : o / 4096 * 4096 < 65536 := by omega
  have hdir := dirIndex_stack hlt
  have htab := tabIndex_stack hlt
  rw [Nat.mul_div_cancel _ (by decide)] at htab
  have hreach := h.reach pd mem_slotDirs_self
  have htable := h.stackTableReach
  have hpd : pdSlot pd (alignDown (stackBase + o) 4096) = pd + 4 * 0x2FF := by
    rw [hpage, ← hdir]
    rfl
  have hpt : ptSlot (stackTable s.mem pd) (alignDown (stackBase + o) 4096) =
      stackTable s.mem pd + 4 * (0x3EE + o / 4096) := by
    rw [hpage, ← htab]
    rfl
  rw [hpd, hpt]
  exact ⟨read32_run (by omega), read32_run (by omega)⟩

theorem withFrame_run (h : StackSpace s pd frame) (ho : o < 65536)
    (hfit : o % 4096 + length ≤ 4096) (src : Bytes) :
    ∃ m, Binfmt.withFrame pd (frame (o / 4096)) (o % 4096) length src () s =
        (.ok (some ()), { s with mem := m }) ∧
      StackSpace { s with mem := m } pd frame ∧
      ∀ k < 65536, stackBytes frame m k = splice (stackBytes frame s.mem) o length src k := by
  have hi : o / 4096 < 16 := by omega
  obtain ⟨hal, hlt⟩ := h.frame_aligned hi
  obtain ⟨m₁, m₂, m₃, hmap, hwrite, hunmap, hm⟩ := h.toSlotReady.copy_run hal hlt hfit
    (fun d hd => ((h.frameApart _ hi).2 d hd).1) src
  refine ⟨m₃, ?_, h.of_copy hi hfit hm, fun k hk => h.stackBytes_copy ho hfit hm hk⟩
  rw [Binfmt.withFrame, bindNonNull, bind_ok hmap, if_neg (by decide), bind_ok hwrite, bind_ok hunmap]
  rfl

theorem splice_two (b src : Bytes) {amount : Nat} (h : amount ≤ length) :
    splice (splice b o amount src) (o + amount) (length - amount) (window src amount) =
      splice b o length src := by
  funext k
  by_cases hin : o ≤ k ∧ k < o + length
  · rw [splice_inside hin.1 hin.2]
    by_cases hfirst : k < o + amount
    · rw [splice_outside (by omega), splice_inside hin.1 hfirst]
    · rw [splice_inside (by omega) (by omega), window_apply]
      congr 1
      omega
  · rw [splice_outside (by omega), splice_outside (by omega), splice_outside (by omega)]

theorem copyFrom_run (h : StackSpace s pd frame) {n : Nat} (hn : length < n)
    (hfit : o + length ≤ 65536) (src : Bytes) :
    ∃ m, execCopyFrom pd n (stackBase + o) src length s = (.ok true, { s with mem := m }) ∧
      StackSpace { s with mem := m } pd frame ∧
      ∀ k < 65536, stackBytes frame m k = splice (stackBytes frame s.mem) o length src k := by
  induction n generalizing s o src length with
  | zero => cases hn
  | succ n ih =>
    by_cases hzero : length = 0
    · subst hzero
      refine ⟨s.mem, by rw [execCopyFrom, if_pos rfl]; rfl, h, fun k _ => ?_⟩
      rw [splice_outside (by omega)]
    have ho : o < 65536 := by omega
    obtain ⟨hpde, hpte⟩ := h.read_entries ho
    obtain ⟨⟨hpresent, huser, -⟩, hframe⟩ := h.pte ho
    have htable : pageWord s.mem pd 0x2FF &&& pagePresent ≠ 0 := by
      rw [← pdeAt_stackBase]
      exact h.table
    have hoffset : (stackBase + o) &&& 4095 = o % 4096 := by
      rw [and_low, stackBase_eq]
      omega
    have hnot : ¬ (pageWord s.mem (stackTable s.mem pd) (0x3EE + o / 4096) &&& pagePresent = 0 ∨
        pageWord s.mem (stackTable s.mem pd) (0x3EE + o / 4096) &&& pageUser = 0) := by
      rintro (h0 | h0)
      · exact hpresent h0
      · exact huser h0
    have hmod := Nat.mod_lt o (show 0 < 4096 by decide)
    obtain ⟨amount, hamount⟩ : ∃ amount,
        amount = if 4096 - o % 4096 > length then length else 4096 - o % 4096 := ⟨_, rfl⟩
    have hbounds : amount ≤ length ∧ 0 < amount ∧ o % 4096 + amount ≤ 4096 := by
      rw [hamount]
      split_ifs <;> omega
    obtain ⟨m₁, hcopy, h₁, hbytes₁⟩ := h.withFrame_run ho hbounds.2.2 src
    obtain ⟨m₂, hrest, h₂, hbytes₂⟩ := ih h₁ (show length - amount < n by omega)
      (show o + amount + (length - amount) ≤ 65536 by omega) (window src amount)
    refine ⟨m₂, ?_, h₂, fun k hk => ?_⟩
    · have hnext : u32 (stackBase + o + amount) = stackBase + (o + amount) := by
        rw [u32_of_lt (by rw [stackBase_eq]; omega), Nat.add_assoc]
      rw [execCopyFrom, if_neg hzero, bind_ok hpde, if_neg htable]
      rw [stackTable_eq] at hpte hnot hframe
      rw [bind_ok hpte, if_neg hnot]
      simp only [hoffset, hframe, ← hamount]
      rw [bind_ok hcopy]
      rw [hnext]
      exact hrest
    · rw [hbytes₂ k hk, ← splice_two (stackBytes frame s.mem) src hbounds.1]
      simp only [splice]
      rw [hbytes₁ k hk]
      rfl

theorem copy_run (h : StackSpace s pd frame) (hfit : o + length ≤ 65536) (src : Bytes) :
    ∃ m, execCopyToUserSpace pd (stackBase + o) src length s = (.ok true, { s with mem := m }) ∧
      StackSpace { s with mem := m } pd frame ∧
      ∀ k < 65536, stackBytes frame m k = splice (stackBytes frame s.mem) o length src k :=
  h.copyFrom_run (Nat.lt_succ_self length) hfit src

end StackSpace

/-! ## The layout -/

/-- The bytes that the arguments take with their terminators. -/
def total (argv : List (List UInt8)) : Nat := (argv.map fun str => str.length + 1).sum

/-- The addresses of arguments that are packed below the top of the stack. -/
def addresses : List (List UInt8) → List Nat
  | [] => []
  | str :: rest => (userStackTop - total (str :: rest)) :: addresses rest

/-- The strings of `argv` stand at the end of the stack's stretch of bytes. -/
def Holds (b : Bytes) : List (List UInt8) → Prop
  | [] => True
  | str :: rest =>
    (∀ k ≤ str.length, b (65536 - total (str :: rest) + k) = strBytes str k) ∧ Holds b rest

variable {argv strs done : List (List UInt8)} {str : List UInt8} {b c : Bytes}

theorem total_cons (str : List UInt8) (argv : List (List UInt8)) :
    total (str :: argv) = str.length + 1 + total argv := by
  rw [total, List.map_cons, List.sum_cons, total]

theorem total_append (strs done : List (List UInt8)) :
    total (strs ++ done) = total strs + total done := by
  rw [total, List.map_append, List.sum_append, total, total]

theorem total_reverse (strs : List (List UInt8)) : total strs.reverse = total strs := by
  rw [total, List.map_reverse, List.sum_reverse, total]

theorem holds_congr (h : Holds b argv) (hfit : total argv ≤ 65536)
    (hbc : ∀ k, 65536 - total argv ≤ k → k < 65536 → c k = b k) : Holds c argv := by
  induction argv with
  | nil => trivial
  | cons str rest ih =>
    rw [total_cons] at hfit hbc
    refine ⟨fun k hk => ?_, ih h.2 (by omega) fun k hk hlt => hbc k (by omega) hlt⟩
    rw [← h.1 k hk]
    exact hbc _ (by rw [total_cons]; omega) (by rw [total_cons]; omega)

theorem userStackTop_eq : userStackTop = stackBase + 65536 := by decide

theorem stackTop_sub {n : Nat} (h : n ≤ 65536) : userStackTop - n = stackBase + (65536 - n) := by
  rw [userStackTop_eq, Nat.add_sub_assoc h]

theorem pushString_full {stack : Nat} (s : Machine)
    (h : str.length + 1 > 4096 * 4 ∨ str.length + 1 > usub stack stackBase) :
    pushString pd str stack s = (.ok none, s) := by
  rw [pushString, if_pos h, pure_run]

theorem pushString_ok {stack : Nat}
    (h : ¬ (str.length + 1 > 4096 * 4 ∨ str.length + 1 > usub stack stackBase))
    (hcopy : execCopyToUserSpace pd (usub stack (str.length + 1)) (strBytes str) (str.length + 1) s =
      (.ok true, t)) :
    pushString pd str stack s = (.ok (some (usub stack (str.length + 1))), t) := by
  rw [pushString, if_neg h, bind_ok hcopy, if_pos rfl, pure_run]

/-- The loop over the arguments, once `done` is in place: it puts the others below, or fails
because one is too long or all together are. -/
theorem pushStrings_run (h : StackSpace s pd frame) (strs : List (List UInt8))
    (hdone : total done ≤ 65536) (hholds : Holds (stackBytes frame s.mem) done) :
    ((∀ str ∈ strs, str.length + 1 ≤ 16384) ∧ total strs + total done ≤ 65536 ∧
      ∃ m, pushStrings pd strs (userStackTop - total done) (addresses done) s =
          (.ok (some (userStackTop - total (strs.reverse ++ done),
            addresses (strs.reverse ++ done))), { s with mem := m }) ∧
        StackSpace { s with mem := m } pd frame ∧
        Holds (stackBytes frame m) (strs.reverse ++ done)) ∨
    (¬ ((∀ str ∈ strs, str.length + 1 ≤ 16384) ∧ total strs + total done ≤ 65536) ∧
      ∃ t, pushStrings pd strs (userStackTop - total done) (addresses done) s = (.ok none, t)) := by
  induction strs generalizing s done with
  | nil =>
    refine .inl ⟨by simp, by rw [total]; simpa using hdone, s.mem, rfl, h, hholds⟩
  | cons str rest ih =>
    have hstack := stackTop_sub hdone
    have hroom : usub (userStackTop - total done) stackBase = 65536 - total done := by
      rw [hstack, usub_of_le (by omega) (by rw [stackBase_eq]; omega)]
      omega
    have htotal := total_cons str done
    have htotal' := total_cons str rest
    by_cases hbad : str.length + 1 > 4096 * 4 ∨ str.length + 1 > usub (userStackTop - total done) stackBase
    · refine .inr ⟨?_, s, by rw [pushStrings, bindSome_none (pushString_full s hbad)]⟩
      rintro ⟨hlong, hsum⟩
      have := hlong str List.mem_cons_self
      omega
    have hnext : usub (userStackTop - total done) (str.length + 1) =
        stackBase + (65536 - total (str :: done)) := by
      rw [hstack, usub_of_le (by omega) (by rw [stackBase_eq]; omega)]
      omega
    have hle : total (str :: done) ≤ 65536 := by omega
    obtain ⟨m₁, hcopy, h₁, hbytes⟩ := h.copy_run (o := 65536 - total (str :: done))
      (show 65536 - total (str :: done) + (str.length + 1) ≤ 65536 by omega) (strBytes str)
    have hholds₁ : Holds (stackBytes frame m₁) (str :: done) := by
      refine ⟨fun k hk => ?_, holds_congr hholds hdone fun k hk hlt => ?_⟩
      · rw [hbytes _ (by omega), splice_at_add (by omega)]
      · rw [hbytes k hlt, splice_outside (by omega)]
    have hstep : ∀ r, pushStrings pd rest (userStackTop - total (str :: done))
        (addresses (str :: done)) { s with mem := m₁ } = r →
        pushStrings pd (str :: rest) (userStackTop - total done) (addresses done) s = r := by
      rintro r rfl
      rw [← hnext] at hcopy
      rw [pushStrings, bindSome_some (pushString_ok hbad hcopy), hnext, addresses, stackTop_sub hle]
    have hmem : (∀ x ∈ str :: rest, x.length + 1 ≤ 16384) ↔ ∀ x ∈ rest, x.length + 1 ≤ 16384 := by
      rw [List.forall_mem_cons]
      exact and_iff_right (by omega)
    have hsum : total (str :: rest) + total done = total rest + total (str :: done) := by omega
    rw [hmem, hsum, List.reverse_cons, List.append_assoc, List.singleton_append]
    rcases ih h₁ (by omega) hholds₁ with ⟨hlong, hfit, m, hrun, hspace, hholds'⟩ | ⟨hnot, t, hrun⟩
    · exact .inl ⟨hlong, hfit, m, hstep _ hrun, hspace, hholds'⟩
    · exact .inr ⟨hnot, t, hstep _ hrun⟩

theorem total_drop (hi : i < argv.length) :
    total (argv.drop i) = (argv.get ⟨i, hi⟩).length + 1 + total (argv.drop (i + 1)) := by
  rw [List.drop_eq_getElem_cons hi, total_cons]
  rfl

theorem total_drop_le (argv : List (List UInt8)) {j : Nat} (h : i ≤ j) : total (argv.drop j) ≤ total (argv.drop i) := by
  obtain ⟨d, rfl⟩ := Nat.exists_eq_add_of_le h
  have hsplit := List.take_append_drop d (argv.drop i)
  rw [List.drop_drop] at hsplit
  rw [← hsplit, total_append]
  exact Nat.le_add_left _ _

theorem length_addresses (argv : List (List UInt8)) : (addresses argv).length = argv.length := by
  induction argv with
  | nil => rfl
  | cons str rest ih => rw [addresses, List.length_cons, List.length_cons, ih]

theorem addresses_getD (hi : i < argv.length) :
    (addresses argv).getD i 0 = userStackTop - total (argv.drop i) := by
  induction argv generalizing i with
  | nil => cases hi
  | cons str rest ih =>
    cases i with
    | zero => rfl
    | succ i => exact ih (Nat.lt_of_succ_lt_succ hi)

theorem holds_get (h : Holds b argv) (hi : i < argv.length) (hk : k ≤ (argv.get ⟨i, hi⟩).length) :
    b (65536 - total (argv.drop i) + k) = strBytes (argv.get ⟨i, hi⟩) k := by
  induction argv generalizing i with
  | nil => cases hi
  | cons str rest ih =>
    cases i with
    | zero => exact h.1 k hk
    | succ i => exact ih h.2 (Nat.lt_of_succ_lt_succ hi) hk

/-- Memory as the user of a directory sees it. -/
def userView (mem : Bytes) (pd : Nat) : Bytes := fun va => mem (translate mem pd va)

/-- The vector at `argvOut` and the strings it points to, in the memory that user code sees. -/
structure ArgsPlaced (view : Bytes) (argv : List (List UInt8)) (stackOut argvOut : Nat) : Prop where
  stackAligned : stackOut % 16 = 0
  argvAligned : argvOut % 4 = 0
  base : stackBase ≤ stackOut
  below : stackOut ≤ argvOut
  top : argvOut + 4 * (argv.length + 1) ≤ userStackTop
  null : le32 view (argvOut + 4 * argv.length) = 0
  copied : ∀ i (hi : i < argv.length), ∀ k ≤ (argv.get ⟨i, hi⟩).length,
    view (le32 view (argvOut + 4 * i) + k) = strBytes (argv.get ⟨i, hi⟩) k
  above : ∀ i < argv.length, argvOut + 4 * (argv.length + 1) ≤ le32 view (argvOut + 4 * i)
  inside : ∀ i (hi : i < argv.length),
    le32 view (argvOut + 4 * i) + ((argv.get ⟨i, hi⟩).length + 1) ≤ userStackTop
  disjoint : ∀ i j (hi : i < argv.length), i < j → j < argv.length →
    le32 view (argvOut + 4 * i) + ((argv.get ⟨i, hi⟩).length + 1) ≤ le32 view (argvOut + 4 * j)

/-- The vector and the strings fit the stack, with the strings' end rounded down to a word. -/
def VectorFits (argv : List (List UInt8)) : Prop :=
  4 * (argv.length + 1) ≤ (65536 - total argv) / 4 * 4

def vectorOffset (argv : List (List UInt8)) : Nat :=
  (65536 - total argv) / 4 * 4 - 4 * (argv.length + 1)

theorem vectorOffset_add (h : VectorFits argv) :
    vectorOffset argv + 4 * (argv.length + 1) = (65536 - total argv) / 4 * 4 :=
  Nat.sub_add_cancel h

theorem argsPlaced (h : StackSpace t pd frame) (hfit : total argv ≤ 65536) (hvec : VectorFits argv)
    (hholds : Holds (stackBytes frame t.mem) argv)
    (hvector : ∀ k < 4 * (argv.length + 1), stackBytes frame t.mem (vectorOffset argv + k) =
      vectorBytes (addresses argv) k) :
    ArgsPlaced (userView t.mem pd) argv (stackBase + vectorOffset argv / 16 * 16)
      (stackBase + vectorOffset argv) := by
  have hbase := stackBase_eq
  have htop := userStackTop_eq
  have hv := vectorOffset_add hvec
  have hview : ∀ o < 65536, userView t.mem pd (stackBase + o) = stackBytes frame t.mem o := by
    intro o ho
    rw [userView, h.translate_eq ho, stackBytes]
  -- the words of the vector
  have hword : ∀ i ≤ argv.length, le32 (userView t.mem pd) (stackBase + vectorOffset argv + 4 * i) =
      (addresses argv).getD i 0 % 2 ^ 32 := by
    intro i hi
    refine le32_of_bytes fun j hj => ?_
    rw [show stackBase + vectorOffset argv + 4 * i + j = stackBase + (vectorOffset argv + (4 * i + j))
      by omega, hview _ (by omega), hvector _ (by omega), vectorBytes,
      show (4 * i + j) / 4 = i by omega, show (4 * i + j) % 4 = j by omega]
  have hdrop : ∀ i, total (argv.drop i) ≤ total argv := fun i => by
    simpa using total_drop_le argv (Nat.zero_le i)
  have haddr : ∀ i < argv.length, le32 (userView t.mem pd) (stackBase + vectorOffset argv + 4 * i) =
      stackBase + (65536 - total (argv.drop i)) := by
    intro i hi
    have hle := hdrop i
    rw [hword i hi.le, addresses_getD hi, Nat.mod_eq_of_lt (by omega)]
    omega
  refine ⟨by omega, by omega, by omega, by omega, by omega, ?_, fun i hi k hk => ?_,
    fun i hi => ?_, fun i hi => ?_, fun i j hi hij hj => ?_⟩
  · rw [hword _ le_rfl, List.getD_eq_default _ _ (length_addresses argv).le]
    rfl
  · have htotal := total_drop hi
    have hle := hdrop i
    rw [haddr i hi, Nat.add_assoc, hview _ (by omega)]
    exact holds_get hholds hi hk
  · have hle := hdrop i
    rw [haddr i hi]
    omega
  · have htotal := total_drop hi
    have hle := hdrop i
    rw [haddr i hi]
    omega
  · have htotal := total_drop hi
    have hle := hdrop i
    have hnext : total (argv.drop j) ≤ total (argv.drop (i + 1)) := total_drop_le argv hij
    rw [haddr i hi, haddr j hj]
    omega

theorem alignDown_word {a : Nat} (h : a < 2 ^ 32) : alignDown a 4 = a / 4 * 4 :=
  and_highMask (k := 2) (m := 30) h

theorem alignDown_sixteen {a : Nat} (h : a < 2 ^ 32) : alignDown a 16 = a / 16 * 16 :=
  and_highMask (k := 4) (m := 28) h

theorem alignDown_stackTop {n : Nat} (h : n ≤ 65536) :
    alignDown (userStackTop - n) 4 = stackBase + (65536 - n) / 4 * 4 := by
  have hbase := stackBase_eq
  rw [stackTop_sub h, alignDown_word (by omega)]
  omega

theorem pushVector_none (hfit : total argv ≤ 65536) (hvec : ¬ VectorFits argv) (s : Machine) :
    pushVector pd argv.length (userStackTop - total argv) (addresses argv) s = (.ok none, s) := by
  have hbase := stackBase_eq
  have hstack := alignDown_stackTop hfit
  rw [VectorFits] at hvec
  rw [pushVector, hstack, usub_of_le (by omega) (by omega), if_pos (by omega)]
  rfl

theorem pushVector_run (h : StackSpace s pd frame) (hfit : total argv ≤ 65536)
    (hvec : VectorFits argv) (hholds : Holds (stackBytes frame s.mem) argv) :
    ∃ m, pushVector pd argv.length (userStackTop - total argv) (addresses argv) s =
        (.ok (some (stackBase + vectorOffset argv / 16 * 16, stackBase + vectorOffset argv)),
          { s with mem := m }) ∧
      StackSpace { s with mem := m } pd frame ∧
      ArgsPlaced (userView m pd) argv (stackBase + vectorOffset argv / 16 * 16)
        (stackBase + vectorOffset argv) := by
  have hbase := stackBase_eq
  have hv := vectorOffset_add hvec
  have hstack := alignDown_stackTop hfit
  have hsize : (argv.length + 1) * 4 = 4 * (argv.length + 1) := Nat.mul_comm _ _
  obtain ⟨m, hcopy, hspace, hbytes⟩ := h.copy_run (o := vectorOffset argv)
    (show vectorOffset argv + 4 * (argv.length + 1) ≤ 65536 by omega) (vectorBytes (addresses argv))
  refine ⟨m, ?_, hspace, argsPlaced hspace hfit hvec ?_ fun k hk => ?_⟩
  · have hnext : usub (stackBase + (65536 - total argv) / 4 * 4) (4 * (argv.length + 1)) =
        stackBase + vectorOffset argv := by
      rw [usub_of_le (by omega) (by omega)]
      omega
    have hout : alignDown (stackBase + vectorOffset argv) 16 =
        stackBase + vectorOffset argv / 16 * 16 := by
      rw [alignDown_sixteen (by omega)]
      omega
    rw [pushVector, hstack, usub_of_le (by omega) (by omega), hsize, if_neg (by omega), hnext,
      bind_ok hcopy, if_pos rfl, hout]
    rfl
  · refine holds_congr hholds hfit fun k hk hlt => ?_
    rw [hbytes k hlt, splice_outside (by omega)]
  · rw [hbytes _ (by omega), splice_at_add hk]

/-- The stack pointer stays between the base and the top, so that the room below it is computed
without wrapping. -/
theorem pushStrings_inside (h : StackSpace s pd frame) {stack : Nat} {userArgv : List Nat}
    (hrun : pushStrings pd strs userStackTop [] s = (.ok (some (stack, userArgv)), t)) :
    stackBase ≤ alignDown stack 4 ∧ stack ≤ userStackTop := by
  have hstart : pushStrings pd strs (userStackTop - total []) (addresses []) s =
      (.ok (some (stack, userArgv)), t) := hrun
  rcases pushStrings_run h strs (show total [] ≤ 65536 by decide) trivial with
    ⟨-, hfit, m, hrun', -⟩ | ⟨-, u, hrun'⟩
  · rw [hstart] at hrun'
    cases hrun'
    have hle : total (strs.reverse ++ []) ≤ 65536 := by
      rwa [total_append, total_reverse]
    rw [alignDown_stackTop hle]
    omega
  · rw [hstart] at hrun'
    cases hrun'

/-- The stack of a new process holds its arguments as `main` expects them, unless they do not fit
or one of them is too long. -/
theorem exec_build_stack_correct (h : StackSpace s pd frame) (arr : Option (List (List UInt8)))
    (hargc : (arr.getD []).length ≤ 32) :
    (∀ n stack userArgv u,
      pushStrings pd ((arr.getD []).reverse.take n) userStackTop [] s =
        (.ok (some (stack, userArgv)), u) →
      stackBase ≤ alignDown stack 4 ∧ stack ≤ userStackTop) ∧
    ((∃ stackOut argvOut t,
        execBuildStack pd (arr.getD []).length arr s = (.ok (some (stackOut, argvOut)), t) ∧
        StackSpace t pd frame ∧ ArgsPlaced (userView t.mem pd) (arr.getD []) stackOut argvOut) ∨
      (∃ t, execBuildStack pd (arr.getD []).length arr s = (.ok none, t)) ∧
        ((∃ str ∈ arr.getD [], 16384 < str.length + 1) ∨
          userStackSize < (total (arr.getD []) + 3) / 4 * 4 + 4 * ((arr.getD []).length + 1))) := by
  refine ⟨fun n stack userArgv u hrun => pushStrings_inside h hrun, ?_⟩
  have hargs : ¬ (((arr.getD []).length : Int) < 0 ∨ ((arr.getD []).length : Int) > 32 ∨
      ((arr.getD []).length : Int) ≠ 0 ∧ arr = none) := by
    rintro (hneg | hbig | ⟨hne, rfl⟩)
    · omega
    · omega
    · exact hne rfl
  have hbuild : execBuildStack pd (arr.getD []).length arr s =
      bindSome (pushStrings pd (arr.getD []).reverse (userStackTop - total []) (addresses []))
        (fun (stack, userArgv) => pushVector pd (arr.getD []).length stack userArgv) s := by
    rw [execBuildStack, if_neg hargs, Int.toNat_natCast, List.take_length]
    rfl
  rw [hbuild]
  generalize arr.getD [] = argv at hargc ⊢
  rcases pushStrings_run h argv.reverse (show total [] ≤ 65536 by decide) trivial with
    ⟨-, hfit, m, hrun, hspace, hholds⟩ | ⟨hnot, t, hrun⟩
  · rw [List.reverse_reverse, List.append_nil] at hrun hholds
    have htotal : total argv ≤ 65536 := by
      rwa [total_reverse] at hfit
    rw [bindSome_some hrun]
    by_cases hvec : VectorFits argv
    · obtain ⟨m', hrun', hspace', hplaced⟩ := pushVector_run hspace htotal hvec hholds
      exact .inl ⟨_, _, _, hrun', hspace', hplaced⟩
    · refine .inr ⟨⟨_, pushVector_none htotal hvec _⟩, .inr ?_⟩
      rw [VectorFits] at hvec
      rw [userStackSize]
      omega
  · refine .inr ⟨⟨t, bindSome_none hrun⟩, ?_⟩
    by_cases hlong : ∃ str ∈ argv, 16384 < str.length + 1
    · exact .inl hlong
    · refine .inr ?_
      have hsum : ¬ total argv.reverse + total [] ≤ 65536 := by
        intro hsum
        refine hnot ⟨fun str hstr => ?_, hsum⟩
        by_contra hlt
        exact hlong ⟨str, List.mem_reverse.mp hstr, by omega⟩
      rw [total_reverse] at hsum
      rw [userStackSize]
      have hzero : total [] = 0 := rfl
      omega

theorem stackFrames_le : 0 ≤ 2 ^ 20 := Nat.zero_le _

/-- A machine with one directory, at 0x1000, whose stack pages are the frames from 0x10000 on and
whose table for the slot is at 0x3000. -/
def stackMachine : Machine where
  mem a := byteOf
    (if a / 4 = 0x400 + 0x2FF then 0x2007
      else if a / 4 = 0x400 + 0x3FB then 0x3003
      else if 0x800 + 0x3EE ≤ a / 4 ∧ a / 4 < 0x800 + 0x3FE then
        0x10007 + 4096 * (a / 4 - (0x800 + 0x3EE))
      else 0) (a % 4)
  direct := 16 * 1024 * 1024
  pmm := ⟨fun _ => 0, 0, 0, stackFrames_le⟩
  heap := ⟨0, 0, 0, 0⟩
  kernelPd := 0x1000
  activePd := 0x1000

theorem stackMachine_space : StackSpace stackMachine 0x1000 fun i => 0x10000 + 4096 * i where
  nonNull := by decide
  aligned := by decide
  reach := by decide
  present := by decide
  tableReach := by decide
  apart := by decide
  table := by decide
  stackTableReach := by decide
  mapped := by decide +kernel
  distinct := by decide
  frameApart := by decide

theorem exec_build_stack_ls :
    ∃ stackOut argvOut t,
      execBuildStack 0x1000 2 (some [[108, 115], [45, 108]]) stackMachine =
        (.ok (some (stackOut, argvOut)), t) ∧
      ArgsPlaced (userView t.mem 0x1000) [[108, 115], [45, 108]] stackOut argvOut := by
  obtain ⟨-, ⟨stackOut, argvOut, t, hrun, -, hplaced⟩ | ⟨-, hbad⟩⟩ :=
    exec_build_stack_correct stackMachine_space (some [[108, 115], [45, 108]]) (by decide)
  · exact ⟨stackOut, argvOut, t, hrun, hplaced⟩
  · exact absurd hbad (by decide)

end CfKernel.Sched
