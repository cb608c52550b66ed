import Mathlib.Tactic

/-!
# Number routines of `math.asm`

The routines are written with the registers that they use; `div` is by a register and with `edx`
cleared before it. A loop takes a number of turns, and `Returns` says that some number is enough.
-/

namespace CfKernel.Libc

def Returns {α : Type} (run : Nat → Option α) (a : α) : Prop := ∃ turns, run turns = some a

variable {n m c r eax edx ecx : UInt32} {k : Nat}

theorem toNat_pos (hc : c ≠ 0) : 0 < c.toNat :=
  Nat.pos_of_ne_zero fun h => hc (UInt32.toNat_inj.mp h)

/-! ## Square roots -/

def sqrtLoop (ecx : UInt32) : Nat → UInt32 → Option UInt32
  | 0, _ => none
  | k + 1, eax => if ecx < eax * eax then some (eax - 1) else sqrtLoop ecx k (eax + 1)

def sqrtU32 (n : UInt32) (turns : Nat) : Option UInt32 := sqrtLoop n turns 0

def SqrtRight (n : UInt32) : Prop :=
  ∃ r, Returns (sqrtU32 n) r ∧ r.toNat * r.toNat ≤ n.toNat ∧ n.toNat < (r.toNat + 1) * (r.toNat + 1)

theorem toNat_square (hc : c.toNat < 65536) : (c * c).toNat = c.toNat * c.toNat := by
  have := Nat.mul_le_mul (Nat.le_of_lt_succ hc) (Nat.le_of_lt_succ hc)
  rw [UInt32.toNat_mul]
  omega

theorem toNat_sub_one (hc : 0 < c.toNat) : (c - 1).toNat = c.toNat - 1 := by
  have := c.toNat_lt
  rw [UInt32.toNat_sub]
  simp only [UInt32.reduceToNat]
  omega

/-- A counter whose square goes around comes after 65536, which has the square 0. -/
theorem sqrtLoop_large (hn : 65535 * 65535 ≤ n.toNat) (hrun : sqrtLoop n k eax = some r) :
    n.toNat < r.toNat * r.toNat := by
  induction k generalizing eax with
  | zero => cases hrun
  | succ k ih =>
    rw [sqrtLoop] at hrun
    split_ifs at hrun with hlt
    · cases hrun
      rw [UInt32.lt_iff_toNat_lt] at hlt
      have hpast : 65536 < eax.toNat := by
        rcases lt_trichotomy eax.toNat 65536 with hsmall | heq | hgt
        · have := Nat.mul_le_mul (Nat.le_of_lt_succ hsmall) (Nat.le_of_lt_succ hsmall)
          rw [toNat_square hsmall] at hlt
          omega
        · rw [UInt32.toNat_mul, heq] at hlt
          omega
        · exact hgt
      have hr : 65536 ≤ eax.toNat - 1 := by omega
      have := Nat.mul_le_mul hr hr
      have := n.toNat_lt
      rw [toNat_sub_one (by omega)]
      omega
    · exact ih hrun

theorem sqrtLoop_run {i : Nat} (hi : i < 65535) (hle : i * i ≤ n.toNat)
    (hlt : n.toNat < (i + 1) * (i + 1)) (heax : eax.toNat ≤ i + 1) (hk : i + 1 - eax.toNat < k) :
    ∃ r, sqrtLoop n k eax = some r ∧ r.toNat = i := by
  induction k generalizing eax with
  | zero => omega
  | succ k ih =>
    rw [sqrtLoop]
    split_ifs with h <;> rw [UInt32.lt_iff_toNat_lt, toNat_square (by omega)] at h
    · have hgt : i < eax.toNat := by
        by_contra hsmall
        have := Nat.mul_le_mul (not_lt.mp hsmall) (not_lt.mp hsmall)
        omega
      exact ⟨_, rfl, by rw [toNat_sub_one (by omega)]; omega⟩
    · have hne : eax.toNat ≠ i + 1 := fun he => h (he ▸ hlt)
      have hinc : (eax + 1).toNat = eax.toNat + 1 := by
        rw [UInt32.toNat_add]
        simp only [UInt32.reduceToNat]
        omega
      exact ih (by omega) (by omega)

theorem sqrt_right_iff (n : UInt32) : SqrtRight n ↔ n.toNat < 65535 * 65535 := by
  constructor
  · rintro ⟨r, ⟨k, hrun⟩, hle, -⟩
    by_contra hn
    exact absurd (sqrtLoop_large (not_lt.mp hn) hrun) (not_lt.mpr hle)
  · intro hn
    have hzero : (0 : UInt32).toNat ≤ n.toNat.sqrt + 1 := Nat.zero_le _
    obtain ⟨r, hrun, hr⟩ := sqrtLoop_run (k := n.toNat.sqrt + 2) (Nat.sqrt_lt.mpr hn)
      (Nat.sqrt_le _) (Nat.lt_succ_sqrt _) hzero (by simp)
    exact ⟨r, ⟨_, hrun⟩, hr ▸ Nat.sqrt_le _, hr ▸ Nat.lt_succ_sqrt _⟩

theorem not_sqrtRight_bound : ¬ SqrtRight 0xFFFE0001 := by
  rintro ⟨r, ⟨k, hrun⟩, hle, -⟩
  exact absurd (sqrtLoop_large (by decide) hrun) (not_lt.mpr hle)

/-! ## Powers -/

theorem toNat_half (c : UInt32) : (c >>> 1).toNat = c.toNat / 2 := by
  rw [UInt32.toNat_shiftRight]
  exact Nat.shiftRight_one _

/-- A set bit multiplies and reduces. The square of `edx` is lost to `xor edx, edx`, and `eax` is
divided once more. -/
def modPowLoop (esi eax edx ecx : UInt32) : UInt32 :=
  if ecx = 0 then eax
  else
    let eax := if ecx &&& 1 = 0 then eax else eax * edx % esi
    modPowLoop esi (eax / esi) (eax % esi) (ecx >>> 1)
termination_by ecx.toNat
decreasing_by
  rw [toNat_half]
  exact Nat.div_lt_self (toNat_pos (by assumption)) Nat.one_lt_two

def modPowU32 (base exp m : UInt32) : UInt32 :=
  if m = 0 then 1 else modPowLoop m 1 base exp

theorem modPowLoop_eq_zero (hecx : ecx ≠ 0) : modPowLoop m eax edx ecx = 0 := by
  fun_induction modPowLoop m eax edx ecx with
  | case1 => contradiction
  | case2 eax edx ecx _ eax' ih =>
    by_cases hlast : ecx >>> 1 = 0
    · -- the last bit is set
      have hone : ecx = 1 := by
        have hhalf := congrArg UInt32.toNat hlast
        have hpos := toNat_pos hecx
        rw [toNat_half] at hhalf
        apply UInt32.toNat_inj.mp
        simp only [UInt32.reduceToNat] at *
        omega
      have heax : eax' / m = 0 := by
        apply UInt32.toNat_inj.mp
        simp [eax', hone]
      rw [hlast, modPowLoop, if_pos rfl, heax]
    · exact ih hlast

theorem modPow_right_iff (base exp : UInt32) (hm : m ≠ 0) :
    (modPowU32 base exp m).toNat = base.toNat ^ exp.toNat % m.toNat ↔
      (exp = 0 ∧ m ≠ 1) ∨ (exp ≠ 0 ∧ m.toNat ∣ base.toNat ^ exp.toNat) := by
  rw [modPowU32, if_neg hm]
  by_cases hexp : exp = 0
  · subst hexp
    rw [modPowLoop, if_pos rfl]
    rcases Nat.eq_or_lt_of_le (toNat_pos hm) with hone | hgt
    · obtain rfl : m = 1 := UInt32.toNat_inj.mp hone.symm
      simp
    · have hne : m ≠ 1 := fun h => hgt.ne' (congrArg UInt32.toNat h)
      have hmod : 1 % m.toNat = 1 := Nat.mod_eq_of_lt hgt
      simp [hmod, hne]
  · simp [modPowLoop_eq_zero hexp, hexp, Nat.dvd_iff_mod_eq_zero, eq_comm]

theorem modPow_right_two : (modPowU32 2 1 2).toNat = 2 ^ 1 % 2 :=
  (modPow_right_iff 2 1 (by decide)).mpr (.inr ⟨by decide, by decide⟩)

theorem modPow_wrong_three : (modPowU32 2 1 3).toNat ≠ 2 ^ 1 % 3 := by
  rw [modPowU32, if_neg (by decide), modPowLoop_eq_zero (by decide)]
  decide

end CfKernel.Libc
