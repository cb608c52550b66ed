import CfKernel.Lib.Bytes

/-!
# Unsigned 32-bit arithmetic

The `u32` and `usize` values of the code are naturals below `2 ^ 32`; these are the operations that
may wrap.
-/

namespace CfKernel.Lib

variable {a b : Nat}

def usub (a b : Nat) : Nat := (a + 2 ^ 32 - b) % 2 ^ 32

theorem usub_of_le (h : b ≤ a) (ha : a < 2 ^ 32) : usub a b = a - b := by
  rw [usub, show a + 2 ^ 32 - b = (a - b) + 2 ^ 32 by omega, Nat.add_mod_right,
    Nat.mod_eq_of_lt (by omega)]

/-- `align_down` for a power of two; `2 ^ 32 - align` is the mask `~(align - 1)`. -/
def alignDown (value align : Nat) : Nat := value &&& (2 ^ 32 - align)

def alignUp (value align : Nat) : Nat := u32 (value + (align - 1)) &&& (2 ^ 32 - align)

theorem alignDown_page (h : a < 2 ^ 32) : alignDown a 4096 = a / 4096 * 4096 :=
  and_highMask (k := 12) (m := 20) h

theorem alignUp_page (h : a + 4095 < 2 ^ 32) : alignUp a 4096 = (a + 4095) / 4096 * 4096 := by
  rw [alignUp, u32_of_lt h]
  exact alignDown_page h

end CfKernel.Lib
