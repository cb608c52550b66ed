import Mathlib.Logic.Function.Basic
import Mathlib.Tactic

/-!
# Loops over an array

The loops that copy, move and clear a stretch of an array, as one function of the index.
-/

namespace CfKernel.Lib

open Function

variable {α : Type} {n d o i : Nat}

def copyRange (n : Nat) (src a : Nat → α) : Nat → α :=
  (List.range n).foldl (fun b k => update b k (src k)) a

/-- `for (k = 0; k < n; k++) a[k] = a[k + d]`. -/
def shiftDown (n d : Nat) (a : Nat → α) : Nat → α :=
  (List.range n).foldl (fun b k => update b k (b (k + d))) a

def fill (o n : Nat) (v : α) (a : Nat → α) : Nat → α :=
  (List.range n).foldl (fun b k => update b (o + k) v) a

theorem copyRange_apply (src a : Nat → α) : copyRange n src a i = if i < n then src i else a i := by
  induction n with
  | zero => rfl
  | succ n ih =>
    have hstep : copyRange (n + 1) src a = update (copyRange n src a) n (src n) := by
      rw [copyRange, List.range_succ, List.foldl_append]
      rfl
    rw [hstep]
    by_cases hi : i = n
    · rw [hi, update_self, if_pos (Nat.lt_succ_self n)]
    · rw [update_of_ne hi, ih]
      exact if_congr (by omega) rfl rfl

/-- The loop reads ahead of what it writes, so it is a shift. -/
theorem shiftDown_apply (a : Nat → α) (hd : 0 < d) :
    shiftDown n d a i = if i < n then a (i + d) else a i := by
  induction n generalizing i with
  | zero => rfl
  | succ n ih =>
    have hstep : shiftDown (n + 1) d a =
        update (shiftDown n d a) n (shiftDown n d a (n + d)) := by
      rw [shiftDown, List.range_succ, List.foldl_append]
      rfl
    rw [hstep]
    by_cases hi : i = n
    · rw [hi, update_self, ih, if_neg (by omega), if_pos (Nat.lt_succ_self n)]
    · rw [update_of_ne hi, ih]
      exact if_congr (by omega) rfl rfl

theorem fill_apply (a : Nat → α) (v : α) :
    fill o n v a i = if o ≤ i ∧ i < o + n then v else a i := by
  induction n with
  | zero => exact (if_neg (by omega)).symm
  | succ n ih =>
    have hstep : fill o (n + 1) v a = update (fill o n v a) (o + n) v := by
      rw [fill, List.range_succ, List.foldl_append]
      rfl
    rw [hstep]
    by_cases hi : i = o + n
    · rw [hi, update_self, if_pos (by omega)]
    · rw [update_of_ne hi, ih]
      exact if_congr (by omega) rfl rfl

/-- A loop that writes the cells in order, each from what the loop has left so far: it leaves `g`
when every cell comes out as in `g` from the cells of `g` before it and the old cells after. -/
theorem foldl_update_apply {f : (Nat → α) → Nat → α} {g a : Nat → α}
    (h : ∀ k < n, ∀ b : Nat → α, (∀ i < k, b i = g i) → (∀ i, k ≤ i → b i = a i) → f b k = g k) :
    (List.range n).foldl (fun b k => update b k (f b k)) a i =
      if i < n then g i else a i := by
  induction n generalizing i with
  | zero => rfl
  | succ n ih =>
    have hbefore : ∀ i, (List.range n).foldl (fun b k => update b k (f b k)) a i =
        if i < n then g i else a i := fun i => ih fun k hk => h k (Nat.lt_succ_of_lt hk)
    rw [List.range_succ, List.foldl_append, List.foldl_cons, List.foldl_nil]
    by_cases hi : i = n
    · rw [hi, update_self, if_pos (Nat.lt_succ_self n)]
      refine h n (Nat.lt_succ_self n) _ (fun j hj => ?_) fun j hj => ?_
      · rw [hbefore, if_pos hj]
      · rw [hbefore, if_neg (not_lt.mpr hj)]
    · rw [update_of_ne hi, hbefore]
      exact if_congr (by omega) rfl rfl

end CfKernel.Lib
