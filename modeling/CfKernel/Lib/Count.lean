import Mathlib.Tactic

/-!
# Counting entries

How often an entry with a property occurs in a finite table, and how a change of one entry changes
that number.
-/

namespace CfKernel.Lib

open Function

theorem card_filter_update {ι β : Type} [DecidableEq ι] (S : Finset ι) (e : ι → β) (P : β → Bool)
    {i : ι} (hi : i ∈ S) (b : β) :
    (S.filter fun j => P (update e i b j)).card + (if P (e i) then 1 else 0) =
      (S.filter fun j => P (e j)).card + (if P b then 1 else 0) := by
  have hrest : ∑ j ∈ S.erase i, (if P (update e i b j) then 1 else 0) =
      ∑ j ∈ S.erase i, (if P (e j) then 1 else 0) := by
    apply Finset.sum_congr rfl
    intro j hj
    rw [update_of_ne (Finset.ne_of_mem_erase hj)]
  rw [Finset.card_filter, Finset.card_filter, ← Finset.add_sum_erase S _ hi,
    ← Finset.add_sum_erase S _ hi, hrest, update_self]
  omega

section Table

variable {ι β : Type} [Fintype ι]

def entryCount (e : ι → β) (P : β → Bool) : Nat := (Finset.univ.filter fun i => P (e i)).card

variable {e : ι → β} {P : β → Bool} {i : ι}

theorem entryCount_pos (h : P (e i) = true) : 0 < entryCount e P :=
  Finset.card_pos.mpr ⟨i, Finset.mem_filter.mpr ⟨Finset.mem_univ i, h⟩⟩

theorem entryCount_eq_zero (h : ∀ i, P (e i) = false) : entryCount e P = 0 := by
  rw [entryCount, Finset.card_eq_zero, Finset.filter_eq_empty_iff]
  intro i _
  rw [h i]
  exact Bool.false_ne_true

theorem entryCount_congr {e' : ι → β} (h : ∀ i, P (e' i) = P (e i)) :
    entryCount e' P = entryCount e P := by
  simp only [entryCount, h]

theorem entryCount_update [DecidableEq ι] (e : ι → β) (P : β → Bool) (i : ι) (b : β) :
    entryCount (update e i b) P + (if P (e i) then 1 else 0) =
      entryCount e P + (if P b then 1 else 0) :=
  card_filter_update Finset.univ e P (Finset.mem_univ i) b

end Table

end CfKernel.Lib
