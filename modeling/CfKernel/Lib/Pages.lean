import CfKernel.Lib.Word

/-!
# Pages of words

A page is 1024 little-endian words at a multiple of 4096. Words of different pages, and different
words of a page, do not overlap.
-/

namespace CfKernel.Lib

variable {m : Bytes} {p q k l v : Nat}

def pageWord (m : Bytes) (p k : Nat) : Nat := le32 m (p + 4 * k)

theorem pageWord_lt (m : Bytes) (p k : Nat) : pageWord m p k < 2 ^ 32 := le32_lt m _

theorem pageWord_put (hv : v < 2 ^ 32) :
    pageWord (putLe32 m (p + 4 * k) v) p l = if l = k then v else pageWord m p l := by
  split_ifs with h
  · rw [h, pageWord, le32_putLe32, Nat.mod_eq_of_lt hv]
  · exact le32_congr fun i hi => putLe32_outside (by omega)

theorem pageWord_put_of_ne (hp : p % 4096 = 0) (hq : q % 4096 = 0) (hk : k < 1024) (hl : l < 1024)
    (h : q ≠ p) : pageWord (putLe32 m (p + 4 * k) v) q l = pageWord m q l :=
  le32_congr fun i hi => putLe32_outside (by omega)

theorem pageWord_clear (hk : k < 1024) : pageWord (splice m p 4096 fun _ => 0) p k = 0 := by
  have hbyte : ∀ i < 4, splice m p 4096 (fun _ => 0) (p + 4 * k + i) = byteOf 0 i := by
    intro i hi
    rw [splice_inside (by omega) (by omega)]
    interval_cases i <;> rfl
  rw [pageWord, le32_of_bytes hbyte, Nat.zero_mod]

theorem pageWord_clear_of_ne (hp : p % 4096 = 0) (hq : q % 4096 = 0) (hl : l < 1024) (h : q ≠ p)
    (f : Bytes) : pageWord (splice m p 4096 f) q l = pageWord m q l :=
  le32_congr fun i hi => splice_outside (by omega)

end CfKernel.Lib
