import Mathlib.Tactic

/-!
# Byte stores and little-endian words

A `Bytes` is memory, a disk or a buffer: a byte for every address. `splice` is `memcpy` and
`memset` at once, `window` is the same store seen from a later address, and `le16`, `le32` and
`putLe16`, `putLe32` read and write little-endian words.
-/

namespace CfKernel.Lib

open Function

abbrev Bytes := Nat → UInt8

/-- `u32` arithmetic: every result is taken modulo `2 ^ 32`. -/
def u32 (n : Nat) : Nat := n % 2 ^ 32

theorem u32_lt (n : Nat) : u32 n < 2 ^ 32 := Nat.mod_lt _ (by decide)

theorem u32_of_lt {n : Nat} (h : n < 2 ^ 32) : u32 n = n := Nat.mod_eq_of_lt h

def splice (dst : Bytes) (at_ len : Nat) (src : Bytes) : Bytes := fun i =>
  if at_ ≤ i ∧ i < at_ + len then src (i - at_) else dst i

def window (b : Bytes) (base : Nat) : Bytes := fun i => b (base + i)

variable {dst src b : Bytes} {p len i base v o : Nat}

theorem splice_inside (h : p ≤ i) (h' : i < p + len) : splice dst p len src i = src (i - p) :=
  if_pos ⟨h, h'⟩

theorem splice_outside (h : i < p ∨ p + len ≤ i) : splice dst p len src i = dst i :=
  if_neg (by omega)

theorem splice_at_add (h : i < len) : splice dst p len src (p + i) = src i := by
  rw [splice_inside (by omega) (by omega), Nat.add_sub_cancel_left]

theorem splice_window_splice (d src : Bytes) {p len o n : Nat} (h : o + n ≤ len) :
    splice d p len (splice (window d p) o n src) = splice d (p + o) n src := by
  funext a
  by_cases hin : p + o ≤ a ∧ a < p + o + n
  · rw [splice_inside (by omega) (by omega), splice_inside (by omega) (by omega),
      splice_inside hin.1 hin.2, Nat.sub_sub]
  · rw [splice_outside (p := p + o) (by omega)]
    by_cases ha : p ≤ a ∧ a < p + len
    · rw [splice_inside ha.1 ha.2, splice_outside (by omega), window, Nat.add_sub_cancel' ha.1]
    · exact splice_outside (by omega)

theorem window_apply : window b base i = b (base + i) := rfl

/-- Writing back a window of a store that differs only inside the window gives that store. -/
theorem splice_one (b : Bytes) (o : Nat) (v : UInt8) : splice b o 1 (fun _ => v) = update b o v := by
  funext a
  by_cases ha : a = o
  · rw [ha, update_self, splice_inside le_rfl (Nat.lt_succ_self o)]
  · rw [update_of_ne ha, splice_outside (by omega)]

theorem splice_window_update (d : Bytes) {p len o : Nat} (v : UInt8) (h : o < len) :
    splice d p len (update (window d p) o v) = update d (p + o) v := by
  rw [← splice_one, splice_window_splice d _ h, splice_one]

theorem splice_window_self {d e : Bytes}
    (h : ∀ a, a < p ∨ p + len ≤ a → e a = d a) : splice d p len (window e p) = e := by
  funext a
  by_cases ha : p ≤ a ∧ a < p + len
  · rw [splice_inside ha.1 ha.2, window_apply, Nat.add_sub_cancel' ha.1]
  · rw [splice_outside (by omega), h a (by omega)]

theorem window_splice (d src : Bytes) (p o len : Nat) :
    window (splice d (p + o) len src) p = splice (window d p) o len src := by
  funext i
  simp only [window, splice]
  by_cases h : o ≤ i ∧ i < o + len
  · rw [if_pos h, if_pos (by omega), Nat.add_sub_add_left]
  · rw [if_neg h, if_neg (by omega)]

theorem update_eq_splice (d : Bytes) (o : Nat) (v : UInt8) :
    update d o v = splice d o 1 fun _ => v := by
  funext i
  by_cases h : i = o
  · subst h
    rw [update_self, splice_inside (by omega) (by omega)]
  · rw [update_of_ne h, splice_outside (by omega)]

def le16 (b : Bytes) (o : Nat) : Nat := (b o).toNat ||| ((b (o + 1)).toNat <<< 8)

def le32 (b : Bytes) (o : Nat) : Nat :=
  (b o).toNat ||| ((b (o + 1)).toNat <<< 8) ||| ((b (o + 2)).toNat <<< 16) |||
    ((b (o + 3)).toNat <<< 24)

/-- Byte `k` of a word, as `(u8)(v >> 8 * k)`. -/
def byteOf (v k : Nat) : UInt8 := UInt8.ofNat (v >>> (8 * k))

def putLe16 (b : Bytes) (o v : Nat) : Bytes := splice b o 2 (byteOf v)

def putLe32 (b : Bytes) (o v : Nat) : Bytes := splice b o 4 (byteOf v)

theorem byteOf_toNat (v k : Nat) : (byteOf v k).toNat = v / 2 ^ (8 * k) % 256 := by
  simp [byteOf, Nat.shiftRight_eq_div_pow]

theorem or_shiftLeft_eq_add {a k : Nat} (h : a < 2 ^ k) (c : Nat) :
    a ||| (c <<< k) = a + c * 2 ^ k := by
  rw [Nat.shiftLeft_eq, Nat.or_comm, Nat.mul_comm, Nat.two_pow_add_eq_or_of_lt h c |>.symm,
    Nat.add_comm]

/-- Masking with `m` ones above `k` zeros drops the low `k` bits of a `k + m`-bit word. -/
theorem and_highMask {x k m : Nat} (h : x < 2 ^ (k + m)) :
    x &&& ((2 ^ m - 1) <<< k) = x / 2 ^ k * 2 ^ k := by
  rw [← Nat.shiftRight_eq_div_pow, ← Nat.shiftLeft_eq]
  apply Nat.eq_of_testBit_eq
  intro i
  rw [Nat.testBit_and, Nat.testBit_shiftLeft, Nat.testBit_shiftLeft, Nat.testBit_shiftRight,
    Nat.testBit_two_pow_sub_one]
  by_cases hk : k ≤ i
  · have hi : k + (i - k) = i := by omega
    by_cases hm : i - k < m
    · simp [hk, hm, hi]
    · have hx : x.testBit i = false :=
        Nat.testBit_lt_two_pow (h.trans_le (Nat.pow_le_pow_right (by decide) (by omega)))
      simp [hm, hi, hx]
  · simp [hk]

theorem le16_eq (b : Bytes) (o : Nat) : le16 b o = (b o).toNat + (b (o + 1)).toNat * 256 :=
  or_shiftLeft_eq_add (k := 8) (b o).toNat_lt _

theorem le32_eq (b : Bytes) (o : Nat) :
    le32 b o = (b o).toNat + (b (o + 1)).toNat * 256 + (b (o + 2)).toNat * 65536 +
      (b (o + 3)).toNat * 16777216 := by
  have h0 := (b o).toNat_lt
  have h1 := (b (o + 1)).toNat_lt
  have h2 := (b (o + 2)).toNat_lt
  unfold le32
  rw [or_shiftLeft_eq_add (k := 8) h0, or_shiftLeft_eq_add (k := 16) (by omega),
    or_shiftLeft_eq_add (k := 24) (by omega)]
  omega

theorem le16_lt (b : Bytes) (o : Nat) : le16 b o < 2 ^ 16 := by
  have h0 := (b o).toNat_lt
  have h1 := (b (o + 1)).toNat_lt
  rw [le16_eq]
  omega

theorem le32_lt (b : Bytes) (o : Nat) : le32 b o < 2 ^ 32 := by
  have h0 := (b o).toNat_lt
  have h1 := (b (o + 1)).toNat_lt
  have h2 := (b (o + 2)).toNat_lt
  have h3 := (b (o + 3)).toNat_lt
  rw [le32_eq]
  omega

theorem le16_congr {b c : Bytes} (h : ∀ k < 2, b (o + k) = c (o + k)) : le16 b o = le16 c o := by
  have h0 := h 0 (by decide)
  have h1 := h 1 (by decide)
  simp only [Nat.add_zero] at h0
  rw [le16, le16, h0, h1]

theorem le32_congr {b c : Bytes} (h : ∀ k < 4, b (o + k) = c (o + k)) : le32 b o = le32 c o := by
  have h0 := h 0 (by decide)
  simp only [Nat.add_zero] at h0
  rw [le32, le32, h0, h 1 (by decide), h 2 (by decide), h 3 (by decide)]

theorem putLe16_apply (b : Bytes) (o v k : Nat) (h : k < 2) : putLe16 b o v (o + k) = byteOf v k :=
  splice_at_add h

theorem putLe32_apply (b : Bytes) (o v k : Nat) (h : k < 4) : putLe32 b o v (o + k) = byteOf v k :=
  splice_at_add h

theorem putLe16_outside {b : Bytes} {v i : Nat} (h : i < o ∨ o + 2 ≤ i) : putLe16 b o v i = b i :=
  splice_outside h

theorem putLe32_outside {b : Bytes} {v i : Nat} (h : i < o ∨ o + 4 ≤ i) : putLe32 b o v i = b i :=
  splice_outside h

theorem putLe16_eq_update (b : Bytes) (o v : Nat) :
    putLe16 b o v = update (update b o (byteOf v 0)) (o + 1) (byteOf v 1) := by
  funext a
  by_cases ha : a = o + 1
  · subst ha
    rw [update_self, putLe16_apply _ _ _ 1 (by decide)]
  · rw [update_of_ne ha]
    by_cases ha' : a = o
    · subst ha'
      rw [update_self]
      exact putLe16_apply _ _ _ 0 (by decide)
    · rw [update_of_ne ha', putLe16_outside (by omega)]

theorem le16_of_bytes {b : Bytes} {v : Nat} (h : ∀ k < 2, b (o + k) = byteOf v k) :
    le16 b o = v % 2 ^ 16 := by
  have h0 := h 0 (by decide)
  have h1 := h 1 (by decide)
  simp only [Nat.add_zero] at h0
  rw [le16_eq, h0, h1, byteOf_toNat, byteOf_toNat]
  omega

theorem le32_of_bytes {b : Bytes} {v : Nat} (h : ∀ k < 4, b (o + k) = byteOf v k) :
    le32 b o = v % 2 ^ 32 := by
  have h0 := h 0 (by decide)
  simp only [Nat.add_zero] at h0
  rw [le32_eq, h0, h 1 (by decide), h 2 (by decide), h 3 (by decide), byteOf_toNat, byteOf_toNat,
    byteOf_toNat, byteOf_toNat]
  omega

theorem le16_putLe16 (b : Bytes) (o v : Nat) : le16 (putLe16 b o v) o = v % 2 ^ 16 :=
  le16_of_bytes (fun _ hk => putLe16_apply b o v _ hk)

theorem le32_putLe32 (b : Bytes) (o v : Nat) : le32 (putLe32 b o v) o = v % 2 ^ 32 :=
  le32_of_bytes (fun _ hk => putLe32_apply b o v _ hk)

end CfKernel.Lib
