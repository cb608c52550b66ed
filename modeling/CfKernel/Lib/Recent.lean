import Mathlib.Data.List.Destutter
import Mathlib.Data.List.DropRight
import Mathlib.Tactic

/-!
# The last few entries without repeats

A history of bounded length that takes a new entry unless its newest one is the same: `keepRecent`
is one step of it. Over a whole sequence of entries it holds the end of the sequence without its
repeats.
-/

namespace CfKernel.Lib

variable {α : Type} {a x : α} {l h : List α} {n : Nat}

theorem getLast?_rtake (hn : 0 < n) : (l.rtake n).getLast? = l.getLast? := by
  rw [List.rtake, List.getLast?_drop]
  split
  · have hnil : l = [] := List.eq_nil_of_length_eq_zero (by omega)
    rw [hnil]
    rfl
  · rfl

variable [DecidableEq α]

/-- A new entry at the end of a history of at most `n`. -/
def keepRecent (n : Nat) (x : α) (h : List α) : List α :=
  if h.getLast? = some x then h else (if h.length = n then h.tail else h) ++ [x]

theorem destutter'_concat :
    (l ++ [x]).destutter' (· ≠ ·) a =
      if (l.destutter' (· ≠ ·) a).getLast? = some x then l.destutter' (· ≠ ·) a
      else l.destutter' (· ≠ ·) a ++ [x] := by
  induction l generalizing a with
  | nil =>
    rw [List.nil_append, List.destutter'_singleton, List.destutter'_nil, List.getLast?_singleton]
    by_cases hax : a = x
    · rw [if_neg (not_not_intro hax), if_pos (congrArg some hax)]
    · rw [if_pos hax, if_neg fun hs => hax (Option.some.inj hs)]
      rfl
  | cons b l ih =>
    by_cases hab : a = b
    · rw [List.cons_append, List.destutter'_cons_neg _ (not_not_intro hab), ih,
        List.destutter'_cons_neg _ (not_not_intro hab)]
    · have hlast : (a :: l.destutter' (· ≠ ·) b).getLast? = (l.destutter' (· ≠ ·) b).getLast? := by
        rw [List.getLast?_cons, List.getLast?_eq_some_getLast (List.destutter'_ne_nil l _)]
        rfl
      rw [List.cons_append, List.destutter'_cons_pos _ hab, ih, List.destutter'_cons_pos _ hab,
        hlast]
      by_cases hx : (l.destutter' (· ≠ ·) b).getLast? = some x
      · rw [if_pos hx, if_pos hx]
      · rw [if_neg hx, if_neg hx, List.cons_append]

theorem destutter_concat :
    (l ++ [x]).destutter (· ≠ ·) =
      if (l.destutter (· ≠ ·)).getLast? = some x then l.destutter (· ≠ ·)
      else l.destutter (· ≠ ·) ++ [x] := by
  cases l with
  | nil => rfl
  | cons a l => exact destutter'_concat

theorem keepRecent_rtake (hn : 0 < n) (x : α) (l : List α) :
    keepRecent n x ((l.destutter (· ≠ ·)).rtake n) = ((l ++ [x]).destutter (· ≠ ·)).rtake n := by
  rw [keepRecent, getLast?_rtake hn, destutter_concat]
  split
  · rfl
  · obtain ⟨m, rfl⟩ : ∃ m, n = m + 1 := ⟨n - 1, by omega⟩
    rw [List.rtake_concat_succ]
    congr 1
    simp only [List.rtake, List.length_drop]
    split
    · rw [List.tail_drop]
      congr 1
      omega
    · congr 1
      omega

theorem length_le_keepRecent : h.length ≤ (keepRecent n x h).length := by
  unfold keepRecent
  split_ifs
  · exact le_rfl
  · rw [List.length_append, List.length_tail, List.length_singleton]
    omega
  · rw [List.length_append]
    exact Nat.le_add_right _ _

end CfKernel.Lib
