import Mathlib.Tactic

/-!
# Bit sets in 32-bit words

A set of naturals is held in an array of words, element `n` in bit `n % 32` of word `n / 32`.
`firstClear` is the usual scan: whole words are skipped while every bit is set, and the first
clear bit of the first other word is taken.
-/

namespace CfKernel.Lib

open Function

abbrev Bitmap := Nat → BitVec 32

namespace Bitmap

def mask (n : Nat) : BitVec 32 := 1#32 <<< (n &&& 31)

def set (b : Bitmap) (n : Nat) : Bitmap :=
  update b (n >>> 5) (b (n >>> 5) ||| mask n)

def clear (b : Bitmap) (n : Nat) : Bitmap :=
  update b (n >>> 5) (b (n >>> 5) &&& ~~~mask n)

def test (b : Bitmap) (n : Nat) : Bool := (b (n >>> 5) &&& mask n) != 0#32

/-- What the scan does with word `i`: it goes on, or it ends with a bit below `total` or none. -/
def scanWord (b : Bitmap) (total i : Nat) : Option (Option Nat) :=
  if b i = BitVec.allOnes 32 then none
  else ((List.range 32).find? fun k => !(b i).getLsbD k).map fun k =>
    if (i <<< 5) + k < total then some ((i <<< 5) + k) else none

def firstClear (b : Bitmap) (total : Nat) : Option Nat :=
  ((List.range ((total + 31) >>> 5)).findSome? (scanWord b total)).join

variable {b : Bitmap} {n m total i : Nat}

theorem shiftRight_five (n : Nat) : n >>> 5 = n / 32 := Nat.shiftRight_eq_div_pow n 5

theorem and_thirtyOne (n : Nat) : n &&& 31 = n % 32 := Nat.and_two_pow_sub_one_eq_mod n 5

theorem getLsbD_mask (n k : Nat) : (mask n).getLsbD k = decide (k = n % 32) := by
  have hlt : n % 32 < 32 := Nat.mod_lt n (by decide)
  rw [mask, and_thirtyOne, BitVec.getLsbD_shiftLeft, BitVec.getLsbD_one]
  by_cases h : k = n % 32
  · subst h
    simp [hlt]
  · have hne : ¬ k - n % 32 = 0 ∨ k < n % 32 := by omega
    rcases hne with hne | hne <;> simp [h, hne]

theorem test_eq (b : Bitmap) (n : Nat) : b.test n = (b (n / 32)).getLsbD (n % 32) := by
  have hlt : n % 32 < 32 := Nat.mod_lt n (by decide)
  rw [test, shiftRight_five, Bool.eq_iff_iff, bne_iff_ne, ne_eq, BitVec.eq_of_getLsbD_eq_iff]
  constructor
  · intro h
    by_contra hbit
    refine h fun k _ => ?_
    rw [BitVec.getLsbD_and, getLsbD_mask, BitVec.getLsbD_zero]
    by_cases hk : k = n % 32
    · rw [hk, Bool.eq_false_iff.mpr hbit, Bool.false_and]
    · rw [decide_eq_false hk, Bool.and_false]
  · intro h hzero
    have hk := hzero (n % 32) hlt
    rw [BitVec.getLsbD_and, getLsbD_mask, h, decide_eq_true rfl, BitVec.getLsbD_zero] at hk
    cases hk

theorem eq_of_word_bit (hw : m / 32 = n / 32) (hb : m % 32 = n % 32) : m = n := by omega

@[simp] theorem test_set (b : Bitmap) (n m : Nat) :
    (b.set n).test m = (decide (m = n) || b.test m) := by
  rw [test_eq, test_eq, set, shiftRight_five]
  by_cases hw : m / 32 = n / 32
  · rw [hw, update_self, BitVec.getLsbD_or, getLsbD_mask, Bool.or_comm]
    congr 1
    rw [decide_eq_decide]
    exact ⟨eq_of_word_bit hw, fun h => by rw [h]⟩
  · rw [update_of_ne hw, decide_eq_false (fun h => hw (by rw [h])), Bool.false_or]

@[simp] theorem test_clear (b : Bitmap) (n m : Nat) :
    (b.clear n).test m = (!decide (m = n) && b.test m) := by
  have hlt : m % 32 < 32 := Nat.mod_lt m (by decide)
  rw [test_eq, test_eq, clear, shiftRight_five]
  by_cases hw : m / 32 = n / 32
  · rw [hw, update_self, BitVec.getLsbD_and, BitVec.getLsbD_not, getLsbD_mask,
      decide_eq_true hlt, Bool.true_and, Bool.and_comm]
    congr 2
    rw [decide_eq_decide]
    exact ⟨eq_of_word_bit hw, fun h => by rw [h]⟩
  · rw [update_of_ne hw, decide_eq_false (fun h => hw (by rw [h])), Bool.not_false, Bool.true_and]

theorem test_of_allOnes {k : Nat} (h : b i = BitVec.allOnes 32) (hk : k < 32) :
    b.test (32 * i + k) = true := by
  rw [test_eq, show (32 * i + k) / 32 = i by omega, show (32 * i + k) % 32 = k by omega, h,
    BitVec.getLsbD_allOnes, decide_eq_true hk]

theorem shiftLeft_five (i : Nat) : i <<< 5 = 32 * i := by
  rw [Nat.shiftLeft_eq]
  omega

theorem scanWord_none (h : scanWord b total i = none) {k : Nat} (hk : k < 32) :
    b.test (32 * i + k) = true := by
  unfold scanWord at h
  split_ifs at h with hones
  · exact test_of_allOnes hones hk
  · rw [Option.map_eq_none_iff, List.find?_eq_none] at h
    have hbit := h k (List.mem_range.mpr hk)
    rw [test_eq, show (32 * i + k) / 32 = i by omega, show (32 * i + k) % 32 = k by omega]
    simpa using hbit

theorem scanWord_some {r : Option Nat} (h : scanWord b total i = some r) :
    ∃ k < 32, b.test (32 * i + k) = false ∧ (∀ j < k, b.test (32 * i + j) = true) ∧
      r = if 32 * i + k < total then some (32 * i + k) else none := by
  unfold scanWord at h
  split_ifs at h with hones
  obtain ⟨k, hfind, hr⟩ := Option.map_eq_some_iff.mp h
  rw [List.find?_range_eq_some] at hfind
  obtain ⟨hclear, hmem, hbefore⟩ := hfind
  have hk : k < 32 := List.mem_range.mp hmem
  have hbit : ∀ j < 32, b.test (32 * i + j) = (b i).getLsbD j := by
    intro j hj
    rw [test_eq, show (32 * i + j) / 32 = i by omega, show (32 * i + j) % 32 = j by omega]
  refine ⟨k, hk, ?_, fun j hj => ?_, ?_⟩
  · rw [hbit k hk]
    simpa using hclear
  · rw [hbit j (hj.trans hk)]
    simpa using hbefore j hj
  · rw [← hr, shiftLeft_five]

theorem findSome?_range_eq_some {α : Type} {f : Nat → Option α} {N : Nat} {a : α}
    (h : (List.range N).findSome? f = some a) : ∃ i < N, f i = some a ∧ ∀ j < i, f j = none := by
  induction N with
  | zero => simp at h
  | succ N ih =>
    rw [List.range_succ, List.findSome?_append, List.findSome?_singleton] at h
    cases hN : (List.range N).findSome? f with
    | some b =>
      rw [hN, Option.some_or] at h
      obtain ⟨i, hi, hfi, hbefore⟩ := ih (hN.trans h)
      exact ⟨i, Nat.lt_succ_of_lt hi, hfi, hbefore⟩
    | none =>
      rw [hN, Option.none_or] at h
      have hbefore := List.findSome?_eq_none_iff.mp hN
      exact ⟨N, N.lt_succ_self, h, fun j hj => hbefore j (List.mem_range.mpr hj)⟩

theorem test_of_scanned (h : ∀ j < i, scanWord b total j = none) (hm : m < 32 * i) :
    b.test m = true := by
  have hm' := scanWord_none (h (m / 32) (by omega)) (Nat.mod_lt m (by decide : 0 < 32))
  rwa [Nat.div_add_mod] at hm'

theorem firstClear_some (h : b.firstClear total = some n) :
    n < total ∧ b.test n = false ∧ ∀ m < n, b.test m = true := by
  have hscan := Option.join_eq_some_iff.mp h
  obtain ⟨i, -, hi, hpassed⟩ := findSome?_range_eq_some hscan
  obtain ⟨k, hk, hclear, hbefore, hr⟩ := scanWord_some hi
  split_ifs at hr with hlt
  obtain rfl := Option.some.inj hr
  refine ⟨hlt, hclear, fun m hm => ?_⟩
  by_cases hword : m < 32 * i
  · exact test_of_scanned hpassed hword
  · have hm' := hbefore (m - 32 * i) (by omega)
    rwa [Nat.add_sub_cancel' (not_lt.mp hword)] at hm'

theorem firstClear_none (h : b.firstClear total = none) (hm : m < total) : b.test m = true := by
  have hlen : (total + 31) >>> 5 = (total + 31) / 32 := shiftRight_five _
  cases hscan : (List.range ((total + 31) >>> 5)).findSome? (scanWord b total) with
  | none =>
    have hpassed : ∀ j < (total + 31) / 32, scanWord b total j = none := fun j hj =>
      List.findSome?_eq_none_iff.mp hscan j (List.mem_range.mpr (hlen ▸ hj))
    exact test_of_scanned hpassed (by omega)
  | some r =>
    rw [firstClear, hscan, Option.join_some] at h
    subst h
    obtain ⟨i, -, hi, hpassed⟩ := findSome?_range_eq_some hscan
    obtain ⟨k, hk, hclear, hbefore, hr⟩ := scanWord_some hi
    split_ifs at hr with hlt
    by_cases hword : m < 32 * i
    · exact test_of_scanned hpassed hword
    · have hm' := hbefore (m - 32 * i) (by omega)
      rwa [Nat.add_sub_cancel' (not_lt.mp hword)] at hm'

end Bitmap

end CfKernel.Lib
