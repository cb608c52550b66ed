import CfKernel.Mm.UserBuffer

/-!
# Strings from user space

`copy_user_string` copies a path byte by byte, and each byte is a `copy_from_user` with its own
walk of the page tables. It ends at the first zero, at the first byte that is not readable, or when
the destination is full.
-/

namespace CfKernel.Mm

open Lib Lib.Eff Function

/-- The destination after a copy to its bytes from `i` on. -/
def putBack (dst : Bytes) (i : Nat) (out : Bytes) : Bytes := fun j =>
  if j < i then dst j else out (j - i)

/-- The turns of the loop from byte `i` on, with `n` left; the value is the result and the
destination. -/
def copyStringFrom (source : Nat) : Nat → Nat → Bytes → UserM (Except Errno Unit × Bytes)
  | 0, capacity, dst => pure (.error .bufferTooSmall, update dst (capacity - 1) 0)
  | n + 1, i, dst =>
    if 0xFFFFFFFF < source + i then pure (.error .badAddress, dst)
    else do
      match ← copyFromUser (some (window dst i)) (u32 (source + i)) 1 with
      | .error e => pure (.error e, dst)
      | .ok out =>
        let dst := putBack dst i (out.getD (window dst i))
        if dst i = 0 then pure (.ok (), dst) else copyStringFrom source n (i + 1) dst

/-- `none` is `NULL`. -/
def copyUserString (kernelDst : Option Bytes) (capacity userSrc : Nat) :
    UserM (Except Errno Unit × Option Bytes) :=
  match kernelDst with
  | none => pure (.error .badAddress, none)
  | some dst =>
    if capacity = 0 ∨ userSrc = 0 then pure (.error .badAddress, some dst)
    else do
      let (r, dst) ← copyStringFrom userSrc capacity 0 dst
      pure (r, some dst)

namespace UserSpace

def Readable (u : UserSpace) (a : Nat) : Prop :=
  u.pd ≠ 0 ∧ a < 2 ^ 32 ∧ UserPage u.mem u.pd false a

end UserSpace

variable {u : UserSpace} {a n i m source capacity : Nat} {dst d : Bytes}

theorem copyFromUser_readable (ha : a ≠ 0) (h : u.Readable a) :
    copyFromUser (some d) a 1 u =
      (.ok (.ok (some (update d 0 (u.byte a)))), { u with touched := a :: u.touched }) := by
  obtain ⟨hpd, hlt, hpage⟩ := h
  have hv : u.Valid false a 1 := by
    refine ⟨ha, hpd, hlt, fun i hi => ?_⟩
    obtain rfl : i = 0 := Nat.lt_one_iff.mp hi
    exact hpage
  have hnull : ¬ (((some d).isNone ∨ a = 0) ∧ 1 ≠ 0) := by simp [ha]
  unfold copyFromUser
  rw [if_neg hnull, bind_ok (UserSpace.userRangeValid_of_valid hv), if_neg (by decide)]
  dsimp only
  rw [bind_run, memcpyFromUser, bind_run, Nat.add_zero a, u32_of_lt hlt, userLoad,
    if_pos hpage.mapped]
  rfl

theorem copyFromUser_unreadable (ha : a ≠ 0) (h : ¬ u.Readable a) :
    copyFromUser (some d) a 1 u = (.ok (.error .badAddress), u) := by
  obtain ⟨b, hrun, hb⟩ := userRangeValid_run u a 1 false
  have hfalse : b = false := by
    by_contra hne
    rw [Bool.not_eq_false] at hne
    rw [hne] at hrun
    have hv := UserSpace.valid_of_userRangeValid ha hrun (by decide)
    exact h ⟨hv.hasPd, by have := hv.below; omega, hv.pages 0 (by decide)⟩
  have hnull : ¬ (((some d).isNone ∨ a = 0) ∧ 1 ≠ 0) := by simp [ha]
  unfold copyFromUser
  rw [if_neg hnull, bind_ok hrun, hfalse, if_pos (by decide)]
  rfl

/-! ## Where the copy ends -/

section Source

variable {readable : Nat → Prop} {byte : Nat → UInt8}

/-- The destination with `m` bytes of the source from byte `i` on. -/
def filled (byte : Nat → UInt8) (dst : Bytes) (i m : Nat) : Bytes := fun j =>
  if i ≤ j ∧ j < i + m then byte j else dst j

@[simp] theorem filled_zero (byte : Nat → UInt8) (dst : Bytes) (i : Nat) :
    filled byte dst i 0 = dst := by
  funext j
  exact if_neg (by omega)

theorem filled_filled (byte : Nat → UInt8) (dst : Bytes) (i m : Nat) :
    filled byte (filled byte dst i 1) (i + 1) m = filled byte dst i (m + 1) := by
  funext j
  unfold filled
  by_cases hlater : i + 1 ≤ j ∧ j < i + 1 + m
  · rw [if_pos hlater, if_pos (by omega)]
  · rw [if_neg hlater]
    exact if_congr (by omega) rfl rfl

theorem putBack_byte (byte : Nat → UInt8) (dst : Bytes) (i : Nat) :
    putBack dst i (update (window dst i) 0 (byte i)) = filled byte dst i 1 := by
  funext j
  unfold putBack filled
  rcases Nat.lt_trichotomy j i with hlt | rfl | hgt
  · rw [if_pos hlt, if_neg (by omega)]
  · rw [if_neg (lt_irrefl j), Nat.sub_self, update_self, if_pos (by omega)]
  · rw [if_neg (by omega), update_of_ne (by omega), window_apply, if_neg (by omega),
      Nat.add_sub_cancel' hgt.le]

/-- The copy goes on after `m` bytes from byte `i`. -/
def Passes (readable : Nat → Prop) (byte : Nat → UInt8) (i m : Nat) : Prop :=
  ∀ j < m, readable (i + j) ∧ byte (i + j) ≠ 0

theorem passes_zero : Passes readable byte i 0 := fun j hj => absurd hj (Nat.not_lt_zero j)

theorem Passes.cons (hread : readable i) (hne : byte i ≠ 0) (h : Passes readable byte (i + 1) m) :
    Passes readable byte i (m + 1) := by
  intro j hj
  cases j with
  | zero => exact ⟨hread, hne⟩
  | succ j =>
    have := h j (by omega)
    rwa [Nat.add_assoc, Nat.add_comm 1 j] at this

/-- The result, the destination and the number of bytes read, by what ends a copy of at most `n`
bytes from byte `i` on. -/
inductive StringEnd (readable : Nat → Prop) (byte : Nat → UInt8) (dst : Bytes) (i n : Nat) :
    Except Errno Unit → Bytes → Nat → Prop where
  | zero (m : Nat) (hm : m < n) (hpass : Passes readable byte i m) (hread : readable (i + m))
      (hzero : byte (i + m) = 0) :
      StringEnd readable byte dst i n (.ok ()) (filled byte dst i (m + 1)) (m + 1)
  | full (hpass : Passes readable byte i n) :
      StringEnd readable byte dst i n (.error .bufferTooSmall)
        (update (filled byte dst i n) (i + n - 1) 0) n
  | bad (m : Nat) (hm : m < n) (hpass : Passes readable byte i m) (hbad : ¬ readable (i + m)) :
      StringEnd readable byte dst i n (.error .badAddress) (filled byte dst i m) m

theorem StringEnd.cons {r : Except Errno Unit} {dst' : Bytes} {k : Nat} (hread : readable i)
    (hne : byte i ≠ 0) (h : StringEnd readable byte (filled byte dst i 1) (i + 1) n r dst' k) :
    StringEnd readable byte dst i (n + 1) r dst' (k + 1) := by
  have hshift : ∀ m, i + 1 + m = i + (m + 1) := fun m => by omega
  cases h with
  | zero m hm hpass hread' hzero =>
    rw [filled_filled]
    rw [hshift] at hread' hzero
    exact .zero (m + 1) (by omega) (hpass.cons hread hne) hread' hzero
  | full hpass =>
    rw [filled_filled, hshift]
    exact .full (hpass.cons hread hne)
  | bad _ hm hpass hbad =>
    rw [filled_filled]
    rw [hshift] at hbad
    exact .bad (k + 1) (by omega) (hpass.cons hread hne) hbad

theorem StringEnd.badHere (hbad : ¬ readable i) :
    StringEnd readable byte dst i (n + 1) (.error .badAddress) dst 0 := by
  have h : StringEnd readable byte dst i (n + 1) _ _ 0 :=
    .bad 0 (Nat.succ_pos n) passes_zero hbad
  rwa [filled_zero] at h

theorem passes_start : Passes readable byte 0 m ↔ ∀ j < m, readable j ∧ byte j ≠ 0 := by
  simp only [Passes, Nat.zero_add]

namespace StringEnd

variable {r : Except Errno Unit} {dst' : Bytes} {k : Nat}
  (h : StringEnd readable byte dst 0 n r dst' k)

include h

theorem ok_iff : r = .ok () ↔ ∃ i < n, byte i = 0 ∧ ∀ j ≤ i, readable j := by
  cases h with
  | zero m hm hpass hread hzero =>
    rw [passes_start] at hpass
    rw [Nat.zero_add] at hread hzero
    refine iff_of_true rfl ⟨m, hm, hzero, fun j hj => ?_⟩
    rcases hj.lt_or_eq with hlt | rfl
    · exact (hpass j hlt).1
    · exact hread
  | full hpass =>
    rw [passes_start] at hpass
    refine iff_of_false nofun ?_
    rintro ⟨i, hi, hzero, -⟩
    exact (hpass i hi).2 hzero
  | bad _ hm hpass hbad =>
    rw [passes_start] at hpass
    rw [Nat.zero_add] at hbad
    refine iff_of_false nofun ?_
    rintro ⟨i, hi, hzero, hread⟩
    rcases Nat.lt_or_ge i k with hlt | hge
    · exact (hpass i hlt).2 hzero
    · exact hbad (hread k hge)

theorem full_iff : r = .error .bufferTooSmall ↔ ∀ i < n, readable i ∧ byte i ≠ 0 := by
  cases h with
  | zero m hm hpass hread hzero =>
    rw [Nat.zero_add] at hzero
    exact iff_of_false nofun fun hall => (hall m hm).2 hzero
  | full hpass => exact iff_of_true rfl (passes_start.mp hpass)
  | bad _ hm hpass hbad =>
    rw [Nat.zero_add] at hbad
    exact iff_of_false nofun fun hall => hbad (hall k hm).1

theorem trichotomy : r = .ok () ∨ r = .error .bufferTooSmall ∨ r = .error .badAddress := by
  cases h with
  | zero => exact .inl rfl
  | full => exact .inr (.inl rfl)
  | bad => exact .inr (.inr rfl)

theorem copied (hr : r = .ok ()) :
    ∃ i < n, (∀ j < i, byte j ≠ 0) ∧ byte i = 0 ∧ ∀ j ≤ i, dst' j = byte j := by
  cases h with
  | zero m hm hpass hread hzero =>
    rw [passes_start] at hpass
    rw [Nat.zero_add] at hzero
    exact ⟨m, hm, fun j hj => (hpass j hj).2, hzero, fun j hj => if_pos (by omega)⟩
  | full => cases hr
  | bad => cases hr

theorem cut (hn : 1 ≤ n) (hr : r = .error .bufferTooSmall) :
    (∀ j < n - 1, dst' j = byte j) ∧ dst' (n - 1) = 0 := by
  cases h with
  | zero => cases hr
  | full hpass =>
    rw [Nat.zero_add]
    refine ⟨fun j hj => ?_, update_self ..⟩
    rw [update_of_ne (by omega)]
    exact if_pos (by omega)
  | bad => cases hr

theorem outside (hn : 1 ≤ n) (j : Nat) (hj : n ≤ j) : dst' j = dst j := by
  cases h with
  | zero m hm => exact if_neg (by omega)
  | full =>
    rw [update_of_ne (by omega)]
    exact if_neg (by omega)
  | bad _ hm => exact if_neg (by omega)

theorem read : k ≤ n ∧ ∀ j, j + 1 < k → byte j ≠ 0 := by
  cases h with
  | zero m hm hpass =>
    exact ⟨hm, fun j hj => (passes_start.mp hpass j (by omega)).2⟩
  | full hpass => exact ⟨le_rfl, fun j hj => (passes_start.mp hpass j (by omega)).2⟩
  | bad _ hm hpass => exact ⟨hm.le, fun j hj => (passes_start.mp hpass j (by omega)).2⟩

end StringEnd

end Source

theorem copyStringFrom_ends (hsource : source ≠ 0) (n i : Nat) (dst : Bytes) (u : UserSpace) :
    ∃ r dst' k, copyStringFrom source n i dst u =
        (.ok (r, dst'), { u with touched := touchedBytes (source + i) k ++ u.touched }) ∧
      StringEnd (fun j => u.Readable (source + j)) (fun j => u.byte (source + j)) dst i n r dst'
        k := by
  induction n generalizing i dst u with
  | zero =>
    refine ⟨_, _, 0, rfl, ?_⟩
    have h : StringEnd (fun j => u.Readable (source + j)) (fun j => u.byte (source + j)) dst i 0 _ _
        0 := .full passes_zero
    rwa [filled_zero] at h
  | succ n ih =>
    rw [copyStringFrom]
    split_ifs with hbig
    · exact ⟨_, _, 0, rfl, .badHere fun h => by have := h.2.1; omega⟩
    rw [u32_of_lt (by omega)]
    by_cases hread : u.Readable (source + i)
    · rw [bind_ok (copyFromUser_readable (by omega) hread)]
      have hput := putBack_byte (fun j => u.byte (source + j)) dst i
      have hbyte : filled (fun j => u.byte (source + j)) dst i 1 i = u.byte (source + i) :=
        if_pos (by omega)
      simp only [Option.getD_some, hput, hbyte]
      split_ifs with hzero
      · exact ⟨_, _, 1, rfl, .zero 0 (Nat.succ_pos n) passes_zero hread hzero⟩
      · obtain ⟨r, dst', k, hrun, hends⟩ := ih (i + 1) (filled (fun j => u.byte (source + j)) dst i 1)
          { u with touched := (source + i) :: u.touched }
        refine ⟨r, dst', k + 1, ?_, StringEnd.cons hread hzero hends⟩
        rw [hrun, touchedBytes_succ, List.append_assoc]
        rfl
    · rw [bind_ok (copyFromUser_unreadable (by omega) hread)]
      exact ⟨_, _, 0, rfl, .badHere hread⟩

/-- `copy_user_string` succeeds exactly when a zero comes in time behind readable bytes, finds the
buffer too small exactly when it is full of readable bytes before that, and otherwise meets an
address that is not readable. It reads no byte behind the first zero and writes none behind the
destination. -/
theorem copyUserString_exact (u : UserSpace) (dst : Bytes) (capacity source : Nat)
    (hcapacity : 1 ≤ capacity) (hsource : source ≠ 0) :
    ∃ r dst' k, copyUserString (some dst) capacity source u =
        (.ok (r, some dst'), { u with touched := touchedBytes source k ++ u.touched }) ∧
      (r = .ok () ↔ ∃ i < capacity, u.byte (source + i) = 0 ∧ source + i < 2 ^ 32 ∧
        ∀ j ≤ i, u.Readable (source + j)) ∧
      (r = .ok () → ∃ i < capacity, (∀ j < i, u.byte (source + j) ≠ 0) ∧
        u.byte (source + i) = 0 ∧ ∀ j ≤ i, dst' j = u.byte (source + j)) ∧
      (r = .error .bufferTooSmall ↔
        ∀ i < capacity, u.Readable (source + i) ∧ u.byte (source + i) ≠ 0) ∧
      (r = .error .bufferTooSmall →
        (∀ j < capacity - 1, dst' j = u.byte (source + j)) ∧ dst' (capacity - 1) = 0) ∧
      (r = .ok () ∨ r = .error .bufferTooSmall ∨ r = .error .badAddress) ∧
      (∀ j, capacity ≤ j → dst' j = dst j) ∧
      k ≤ capacity ∧ ∀ j, j + 1 < k → u.byte (source + j) ≠ 0 := by
  obtain ⟨r, dst', k, hrun, hends⟩ := copyStringFrom_ends hsource capacity 0 dst u
  refine ⟨r, dst', k, ?_, ?_⟩
  · unfold copyUserString
    dsimp only
    rw [if_neg (by omega), bind_ok hrun]
    rfl
  refine ⟨hends.ok_iff.trans ?_, hends.copied, hends.full_iff, hends.cut hcapacity,
    hends.trichotomy, hends.outside hcapacity, hends.read⟩
  constructor
  · rintro ⟨i, hi, hzero, hread⟩
    exact ⟨i, hi, hzero, (hread i le_rfl).2.1, hread⟩
  · rintro ⟨i, hi, hzero, -, hread⟩
    exact ⟨i, hi, hzero, hread⟩

/-- The process with one page has a zero at once. -/
theorem copyUserString_exact_onePage :
    ∃ r dst' k, copyUserString (some fun _ => 1) 8 0x10000 UserSpace.onePage =
        (.ok (r, some dst'), { UserSpace.onePage with touched := touchedBytes 0x10000 k ++ [] }) ∧
      r = .ok () := by
  obtain ⟨r, dst', k, hrun, hok, -⟩ :=
    copyUserString_exact UserSpace.onePage (fun _ => 1) 8 0x10000 (by decide) (by decide)
  refine ⟨r, dst', k, hrun, hok.mpr ⟨0, by decide, by decide +kernel, by decide, fun j hj => ?_⟩⟩
  have hv := UserSpace.onePage_valid false (n := 1) (by decide)
  exact ⟨hv.hasPd, by omega, hv.pages j (by omega)⟩

end CfKernel.Mm
