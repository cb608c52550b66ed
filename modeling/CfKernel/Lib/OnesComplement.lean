import Mathlib.Data.List.Basic
import Mathlib.Tactic

/-!
# One's-complement sums

Addition with the carry brought back in, for words up to `m`. A sum is determined by its residue
modulo `m` and by whether anything but zero was added: `Folds m r n` says that `r` is `n` reduced in
this way, by whatever order of carries.
-/

namespace CfKernel.Lib

variable {m b r r' n n' : Nat} {l : List Nat}

def onesAdd (m a b : Nat) : Nat := if m < a + b then a + b - m else a + b

def onesSum (m : Nat) (l : List Nat) : Nat := l.foldl (onesAdd m) 0

/-- `r` is `n` with the carries brought back in. -/
structure Folds (m r n : Nat) : Prop where
  le : r ≤ m
  residue : r ≡ n [MOD m]
  zero : r = 0 ↔ n = 0

theorem Folds.self (h : n ≤ m) : Folds m n n := ⟨h, rfl, Iff.rfl⟩

theorem Folds.eq_top_iff (h : Folds m r n) (hm : 0 < m) : r = m ↔ 0 < n ∧ m ∣ n := by
  constructor
  · rintro rfl
    refine ⟨Nat.pos_of_ne_zero fun hn => hm.ne' (h.zero.mpr hn), ?_⟩
    exact (Nat.modEq_zero_iff_dvd.mp (h.residue.symm.trans (Nat.modEq_zero_iff_dvd.mpr dvd_rfl)))
  · rintro ⟨hpos, hdvd⟩
    have hr : m ∣ r := Nat.modEq_zero_iff_dvd.mp (h.residue.trans (Nat.modEq_zero_iff_dvd.mpr hdvd))
    have hr0 : 0 < r := Nat.pos_of_ne_zero fun h0 => hpos.ne' (h.zero.mp h0)
    exact le_antisymm h.le (Nat.le_of_dvd hr0 hr)

/-- Two sums are the same exactly when their residues are and zero is not taken for all ones. -/
theorem Folds.eq_iff (h : Folds m r n) (h' : Folds m r' n') :
    r = r' ↔ n ≡ n' [MOD m] ∧ (n = 0 ↔ n' = 0) := by
  constructor
  · rintro rfl
    exact ⟨h.residue.symm.trans h'.residue, h.zero.symm.trans h'.zero⟩
  · rintro ⟨hres, hzero⟩
    have hmod : r ≡ r' [MOD m] := (h.residue.trans hres).trans h'.residue.symm
    have hzero' : r = 0 ↔ r' = 0 := (h.zero.trans hzero).trans h'.zero.symm
    have hle := h.le
    have hle' := h'.le
    rcases Nat.lt_or_ge r m with hr | hr
    · rcases Nat.lt_or_ge r' m with hr' | hr'
      · exact Nat.ModEq.eq_of_lt_of_lt hmod hr hr'
      · have htop : m ∣ r := (hmod.dvd_iff dvd_rfl).mpr (le_antisymm hle' hr' ▸ dvd_rfl)
        have hr0 : r = 0 := Nat.eq_zero_of_dvd_of_lt htop hr
        exact hr0.trans (hzero'.mp hr0).symm
    · have htop : m ∣ r' := (hmod.dvd_iff dvd_rfl).mp (le_antisymm hle hr ▸ dvd_rfl)
      rcases Nat.lt_or_ge r' m with hr' | hr'
      · have hr0 : r' = 0 := Nat.eq_zero_of_dvd_of_lt htop hr'
        exact (hzero'.mpr hr0).trans hr0.symm
      · omega

theorem Folds.onesAdd (h : Folds m r n) (hb : b ≤ m) : Folds m (onesAdd m r b) (n + b) := by
  have hle := h.le
  have hzero := h.zero
  rw [Lib.onesAdd]
  split_ifs with hcarry
  · refine ⟨by omega, ?_, by omega⟩
    have hback : r + b - m + m ≡ n + b [MOD m] := by
      rw [Nat.sub_add_cancel hcarry.le]
      exact h.residue.add_right b
    exact (Nat.add_modEq_right).symm.trans hback
  · exact ⟨by omega, h.residue.add_right b, by omega⟩

theorem folds_foldl (h : Folds m r n) (hl : ∀ x ∈ l, x ≤ m) :
    Folds m (l.foldl (onesAdd m) r) (n + l.sum) := by
  induction l generalizing r n with
  | nil => exact h
  | cons x l ih =>
    rw [List.foldl_cons, List.sum_cons, ← Nat.add_assoc]
    exact ih (h.onesAdd (hl x List.mem_cons_self)) fun y hy => hl y (List.mem_cons_of_mem x hy)

theorem folds_onesSum (hl : ∀ x ∈ l, x ≤ m) : Folds m (onesSum m l) l.sum := by
  have h := folds_foldl (Folds.self (Nat.zero_le m)) hl
  rwa [Nat.zero_add] at h

end CfKernel.Lib
