import CfKernel.Lib.Bytes
import CfKernel.Lib.OnesComplement

/-!
# Internet checksums

`net_checksum` adds up the big-endian words of a buffer in 32 bits and brings the carries back in at
the end. `net_pseudo_checksum` starts from the words of the IPv4 pseudo-header; so do
`net_udp_checksum` and `net_tcp_checksum`, which exchange the bytes of the protocol and the length
first.
-/

namespace CfKernel.Net

open Lib

section Words

def netHtons (x : Nat) : Nat :=
  ((x % 2 ^ 16) <<< 8 &&& 0xFF00) ||| ((x % 2 ^ 16) >>> 8 &&& 0x00FF)

def swap16 (x : Nat) : Nat := x % 256 * 256 + x / 256 % 256

theorem netHtons_eq (x : Nat) : netHtons x = swap16 x := by
  have hlow : (x % 2 ^ 16) <<< 8 &&& 0xFF00 = (x % 256) <<< 8 := by
    have hmask : x % 2 ^ 16 &&& 0xFF = x % 2 ^ 16 % 2 ^ 8 := Nat.and_two_pow_sub_one_eq_mod _ 8
    have hshift : (x % 2 ^ 16) <<< 8 &&& 0xFF <<< 8 = (x % 2 ^ 16 &&& 0xFF) <<< 8 :=
      (Nat.shiftLeft_and_distrib).symm
    have hmod : x % 2 ^ 16 % 2 ^ 8 = x % 256 := by omega
    rw [show 0xFF00 = 0xFF <<< 8 from rfl, hshift, hmask, hmod]
  have hhigh : (x % 2 ^ 16) >>> 8 &&& 0x00FF = x / 256 % 256 := by
    have hmask : (x % 2 ^ 16) >>> 8 &&& 0xFF = (x % 2 ^ 16) >>> 8 % 2 ^ 8 :=
      Nat.and_two_pow_sub_one_eq_mod _ 8
    rw [hmask, Nat.shiftRight_eq_div_pow]
    omega
  have hlt : x / 256 % 256 < 2 ^ 8 := Nat.mod_lt _ (by decide)
  have hor : x / 256 % 256 ||| (x % 256) <<< 8 = x / 256 % 256 + x % 256 * 256 :=
    or_shiftLeft_eq_add hlt _
  rw [netHtons, hlow, hhigh, Nat.or_comm, hor, swap16, Nat.add_comm]

theorem swap16_lt (x : Nat) : swap16 x < 2 ^ 16 := by
  rw [swap16]
  omega

theorem swap16_eq {a b : Nat} (ha : a < 256) (hb : b < 256) : swap16 (a * 256 + b) = b * 256 + a := by
  have hlow : (a * 256 + b) % 256 = b := by omega
  have hhigh : (a * 256 + b) / 256 % 256 = a := by omega
  rw [swap16, hlow, hhigh]

theorem swap16_swap16 {x : Nat} (h : x < 2 ^ 16) : swap16 (swap16 x) = x := by
  have hx : x = x / 256 * 256 + x % 256 := by omega
  have hhigh : x / 256 < 256 := by omega
  have hlow : x % 256 < 256 := Nat.mod_lt _ (by decide)
  rw [hx, swap16_eq hhigh hlow, swap16_eq hlow hhigh]

theorem swap16_modEq {x : Nat} (h : x < 2 ^ 16) : swap16 x ≡ 256 * x [MOD 0xFFFF] := by
  have hcarry : 256 * x = swap16 x + 0xFFFF * (x / 256) := by
    rw [swap16]
    omega
  rw [hcarry]
  exact (Nat.add_mul_mod_self_left _ _ _).symm

end Words

section Checksum

def beWord (data : Bytes) (i : Nat) : Nat := (data i).toNat <<< 8 ||| (data (i + 1)).toNat

/-- The first loop of `net_checksum`, with the odd byte at the end. -/
def sumWords (data : Bytes) : Nat → Nat → Nat → Nat
  | 0, _, sum => sum
  | 1, i, sum => u32 (sum + (data i).toNat <<< 8)
  | len + 2, i, sum => sumWords data len (i + 2) (u32 (sum + beWord data i))

theorem carry_lt {sum : Nat} (h : sum >>> 16 ≠ 0) : (sum &&& 0xFFFF) + (sum >>> 16) < sum := by
  have hlow : sum &&& 0xFFFF = sum % 2 ^ 16 := Nat.and_two_pow_sub_one_eq_mod sum 16
  rw [Nat.shiftRight_eq_div_pow] at h ⊢
  omega

/-- `while (sum >> 16) sum = (sum & 0xffff) + (sum >> 16)`. -/
def foldCarries (sum : Nat) : Nat :=
  if sum >>> 16 ≠ 0 then foldCarries ((sum &&& 0xFFFF) + (sum >>> 16)) else sum
termination_by sum
decreasing_by exact carry_lt ‹_›

def complement (sum : Nat) : Nat := (2 ^ 32 - 1 - sum) % 2 ^ 16

def netChecksum (data : Bytes) (len : Nat) : Nat := complement (foldCarries (sumWords data len 0 0))

/-- The first `k` words of a buffer, from `i` on. -/
def wordsFrom (data : Bytes) : Nat → Nat → List Nat
  | 0, _ => []
  | k + 1, i => beWord data i :: wordsFrom data k (i + 2)

/-- The words of `len` bytes from `i` on; an odd last byte is the high byte of its word. -/
def bigEndianWords (data : Bytes) : Nat → Nat → List Nat
  | 0, _ => []
  | 1, i => [(data i).toNat <<< 8]
  | len + 2, i => beWord data i :: bigEndianWords data len (i + 2)

variable {data other : Bytes} {k i j s n len : Nat}

theorem bigEndianWords_even : bigEndianWords data (2 * k) i = wordsFrom data k i := by
  induction k generalizing i with
  | zero => rfl
  | succ k ih => rw [Nat.mul_succ, bigEndianWords, ih, wordsFrom]

theorem beWord_eq (data : Bytes) (i : Nat) :
    beWord data i = (data i).toNat * 256 + (data (i + 1)).toNat := by
  have hor : (data (i + 1)).toNat ||| (data i).toNat <<< 8 =
      (data (i + 1)).toNat + (data i).toNat * 256 :=
    or_shiftLeft_eq_add (k := 8) (data (i + 1)).toNat_lt _
  rw [beWord, Nat.or_comm, hor, Nat.add_comm]

theorem beWord_le (data : Bytes) (i : Nat) : beWord data i ≤ 0xFFFF := by
  have h0 := (data i).toNat_lt
  have h1 := (data (i + 1)).toNat_lt
  rw [beWord_eq]
  omega

theorem swap16_word (v : Nat) (b : Bytes) {i : Nat} (h0 : b i = byteOf v 0)
    (h1 : b (i + 1) = byteOf v 1) : beWord b i = swap16 v := by
  rw [beWord_eq, h0, h1, byteOf_toNat, byteOf_toNat, swap16]
  omega

theorem bigEndianWords_le (data : Bytes) (len i : Nat) :
    ∀ x ∈ bigEndianWords data len i, x ≤ 0xFFFF := by
  fun_induction bigEndianWords data len i with
  | case1 i => exact fun x hx => absurd hx List.not_mem_nil
  | case2 i =>
    intro x hx
    have hbyte := (data i).toNat_lt
    rw [List.mem_singleton.mp hx, Nat.shiftLeft_eq]
    omega
  | case3 len i ih =>
    intro x hx
    rcases List.mem_cons.mp hx with rfl | hx
    · exact beWord_le data i
    · exact ih x hx

theorem length_bigEndianWords (data : Bytes) (len i : Nat) :
    (bigEndianWords data len i).length = (len + 1) / 2 := by
  fun_induction bigEndianWords data len i with
  | case1 i => rfl
  | case2 i => rfl
  | case3 len i ih =>
    rw [List.length_cons, ih]
    omega

theorem bigEndianWords_sum_le (data : Bytes) (len i : Nat) :
    (bigEndianWords data len i).sum ≤ (len + 1) / 2 * 0xFFFF := by
  have h := List.sum_le_card_nsmul _ _ (bigEndianWords_le data len i)
  rwa [length_bigEndianWords, smul_eq_mul] at h

theorem sumWords_eq (data : Bytes) (len i s : Nat)
    (h : s + (bigEndianWords data len i).sum < 2 ^ 32) :
    sumWords data len i s = s + (bigEndianWords data len i).sum := by
  fun_induction sumWords data len i s with
  | case1 i s => rfl
  | case2 i s =>
    rw [bigEndianWords, List.sum_singleton] at h ⊢
    exact u32_of_lt h
  | case3 len i s ih =>
    rw [bigEndianWords, List.sum_cons, ← Nat.add_assoc] at h ⊢
    have hword : u32 (s + beWord data i) = s + beWord data i := u32_of_lt (by omega)
    rw [hword] at ih ⊢
    exact ih h

theorem folds_foldCarries (n : Nat) : Folds 0xFFFF (foldCarries n) n := by
  induction n using Nat.strong_induction_on with
  | _ n ih =>
    rw [foldCarries]
    split_ifs with hcarry
    · have h := ih _ (carry_lt hcarry)
      have hlow : n &&& 0xFFFF = n % 2 ^ 16 := Nat.and_two_pow_sub_one_eq_mod n 16
      rw [hlow, Nat.shiftRight_eq_div_pow] at h
      rw [Nat.shiftRight_eq_div_pow] at hcarry
      rw [hlow, Nat.shiftRight_eq_div_pow]
      refine ⟨h.le, h.residue.trans ?_, h.zero.trans (by omega)⟩
      change (n % 2 ^ 16 + n / 2 ^ 16) % 0xFFFF = n % 0xFFFF
      omega
    · rw [not_not, Nat.shiftRight_eq_div_pow] at hcarry
      exact Folds.self (by omega)

theorem complement_eq (h : n ≤ 0xFFFF) : complement n = 0xFFFF - n := by
  rw [complement]
  omega

/-- The folded sum, complemented: what the checksum functions return for what they added up. -/
theorem complement_foldCarries {l : List Nat} (hl : ∀ x ∈ l, x ≤ 0xFFFF) :
    complement (foldCarries l.sum) = 0xFFFF - onesSum 0xFFFF l := by
  have hsame : foldCarries l.sum = onesSum 0xFFFF l :=
    ((folds_foldCarries l.sum).eq_iff (folds_onesSum hl)).mpr ⟨rfl, Iff.rfl⟩
  rw [complement_eq (folds_foldCarries _).le, hsame]

theorem complement_foldCarries_eq_zero : complement (foldCarries n) = 0 ↔ 0 < n ∧ 0xFFFF ∣ n := by
  have hfold := folds_foldCarries n
  have hle := hfold.le
  rw [complement_eq hle, ← hfold.eq_top_iff (by decide)]
  omega

theorem sumWords_zero (h : len ≤ 2 ^ 17) :
    sumWords data len 0 0 = (bigEndianWords data len 0).sum := by
  have hle := bigEndianWords_sum_le data len 0
  rw [sumWords_eq data len 0 0 (by omega), Nat.zero_add]

theorem wordsFrom_congr (h : ∀ p, i ≤ p → other p = data p) :
    wordsFrom other k i = wordsFrom data k i := by
  induction k generalizing i with
  | zero => rfl
  | succ k ih =>
    rw [wordsFrom, wordsFrom, beWord, beWord, h i le_rfl, h (i + 1) (by omega),
      ih fun p hp => h p (by omega)]

theorem wordsFrom_sum_change (hj : j < k)
    (h : ∀ p, p ≠ i + 2 * j → p ≠ i + 2 * j + 1 → other p = data p) :
    (wordsFrom other k i).sum + beWord data (i + 2 * j) =
      (wordsFrom data k i).sum + beWord other (i + 2 * j) := by
  induction k generalizing i j with
  | zero => exact absurd hj (Nat.not_lt_zero j)
  | succ k ih =>
    rw [wordsFrom, wordsFrom, List.sum_cons, List.sum_cons]
    cases j with
    | zero =>
      have hrest : wordsFrom other k (i + 2) = wordsFrom data k (i + 2) :=
        wordsFrom_congr fun p hp => h p (by omega) (by omega)
      have hhere : i + 2 * 0 = i := rfl
      rw [hhere, hrest]
      omega
    | succ j =>
      have hhead : beWord other i = beWord data i := by
        rw [beWord, beWord, h i (by omega) (by omega), h (i + 1) (by omega) (by omega)]
      have hnext : i + 2 * (j + 1) = i + 2 + 2 * j := by omega
      rw [hnext] at h ⊢
      have hrest := ih (Nat.lt_of_succ_lt_succ hj) h
      rw [hhead]
      omega

theorem wordsFrom_succ_last :
    wordsFrom data (k + 1) i = wordsFrom data k i ++ [beWord data (i + 2 * k)] := by
  induction k generalizing i with
  | zero => rfl
  | succ k ih =>
    have hnext : i + 2 * (k + 1) = i + 2 + 2 * k := by omega
    rw [wordsFrom, ih, hnext]
    rfl

/-- A word stored big-endian behind the first `o` bytes. -/
def putBe16 (b : Bytes) (o v : Nat) : Bytes := putLe16 b o (swap16 v)

theorem beWord_putBe16 {b : Bytes} {o v : Nat} (hv : v < 2 ^ 16) : beWord (putBe16 b o v) o = v := by
  have h0 : putBe16 b o v o = byteOf (swap16 v) 0 := putLe16_apply b o (swap16 v) 0 (by decide)
  have h1 : putBe16 b o v (o + 1) = byteOf (swap16 v) 1 :=
    putLe16_apply b o (swap16 v) 1 (by decide)
  rw [swap16_word (swap16 v) _ h0 h1, swap16_swap16 hv]

theorem wordsFrom_putBe16 {v : Nat} (hv : v < 2 ^ 16) :
    (wordsFrom (putBe16 data (2 * k) v) (k + 1) 0).sum = (wordsFrom data k 0).sum + v := by
  have hkeep : ∀ m, m ≤ k → wordsFrom (putBe16 data (2 * k) v) m 0 = wordsFrom data m 0 := by
    intro m hm
    induction m with
    | zero => rfl
    | succ m ih =>
      have h0 : putBe16 data (2 * k) v (0 + 2 * m) = data (0 + 2 * m) :=
        putLe16_outside (Or.inl (by omega))
      have h1 : putBe16 data (2 * k) v (0 + 2 * m + 1) = data (0 + 2 * m + 1) :=
        putLe16_outside (Or.inl (by omega))
      rw [wordsFrom_succ_last, wordsFrom_succ_last, ih (by omega), beWord, beWord, h0, h1]
  rw [wordsFrom_succ_last, hkeep k le_rfl, Nat.zero_add, beWord_putBe16 hv, List.sum_append,
    List.sum_singleton]

theorem netChecksum_even_eq_zero (hk : 2 * k ≤ 2 ^ 17) :
    netChecksum data (2 * k) = 0 ↔
      0 < (wordsFrom data k 0).sum ∧ 0xFFFF ∣ (wordsFrom data k 0).sum := by
  rw [netChecksum, sumWords_zero hk, bigEndianWords_even, complement_foldCarries_eq_zero]

end Checksum

/-- `net_checksum` returns the complement of the one's-complement sum of the words, its accumulator
never wraps, and behind an even number of bytes the result makes the checksum zero, until a word is
changed to one of another residue. -/
theorem netChecksum_correct (data : Bytes) (len : Nat) (hlen : len ≤ 65535) :
    (bigEndianWords data len 0).sum < 2 ^ 32 ∧
    sumWords data len 0 0 = (bigEndianWords data len 0).sum ∧
    netChecksum data len = 0xFFFF - onesSum 0xFFFF (bigEndianWords data len 0) ∧
    (2 ∣ len →
      netChecksum (putBe16 data len (netChecksum data len)) (len + 2) = 0 ∧
      ∀ (j : Nat) (other : Bytes), 2 * j < len + 2 →
        (∀ p, p ≠ 2 * j → p ≠ 2 * j + 1 →
          other p = putBe16 data len (netChecksum data len) p) →
        ¬ beWord other (2 * j) ≡ beWord (putBe16 data len (netChecksum data len)) (2 * j)
          [MOD 65535] →
        netChecksum other (len + 2) ≠ 0) := by
  have hbound := bigEndianWords_sum_le data len 0
  have hsum : sumWords data len 0 0 = (bigEndianWords data len 0).sum :=
    sumWords_zero (by omega)
  have hvalue : netChecksum data len = 0xFFFF - onesSum 0xFFFF (bigEndianWords data len 0) := by
    rw [netChecksum, hsum, complement_foldCarries (bigEndianWords_le data len 0)]
  refine ⟨by omega, hsum, hvalue, ?_⟩
  rintro ⟨k, rfl⟩
  have hfold := folds_foldCarries (wordsFrom data k 0).sum
  have hle := hfold.le
  have hresult : netChecksum data (2 * k) = 0xFFFF - foldCarries (wordsFrom data k 0).sum := by
    rw [netChecksum, hsum, bigEndianWords_even, complement_eq hle]
  obtain ⟨c, hc⟩ : ∃ c, c = netChecksum data (2 * k) := ⟨_, rfl⟩
  obtain ⟨ext, hext⟩ : ∃ ext, ext = putBe16 data (2 * k) c := ⟨_, rfl⟩
  have htotal : (wordsFrom ext (k + 1) 0).sum = (wordsFrom data k 0).sum + c := by
    rw [hext, wordsFrom_putBe16 (by omega)]
  -- what was added up and its complement make a positive multiple of 65535
  have hmultiple : 0 < (wordsFrom ext (k + 1) 0).sum ∧ 0xFFFF ∣ (wordsFrom ext (k + 1) 0).sum := by
    have hzero := hfold.zero
    have hres : foldCarries (wordsFrom data k 0).sum % 0xFFFF = (wordsFrom data k 0).sum % 0xFFFF :=
      hfold.residue
    rw [htotal, hc, hresult]
    omega
  rw [← hc, ← hext]
  refine ⟨(netChecksum_even_eq_zero (k := k + 1) (by omega)).mpr hmultiple, ?_⟩
  intro j other hj hagree hword hzero
  have hother := (netChecksum_even_eq_zero (k := k + 1) (by omega)).mp hzero
  have hchange : (wordsFrom other (k + 1) 0).sum + beWord ext (0 + 2 * j) =
      (wordsFrom ext (k + 1) 0).sum + beWord other (0 + 2 * j) :=
    wordsFrom_sum_change (by omega) (by simpa only [Nat.zero_add] using hagree)
  rw [Nat.zero_add] at hchange
  apply hword
  change beWord other (2 * j) % 65535 = beWord ext (2 * j) % 65535
  omega

/-- Four bytes of ones: the word behind them is 0xFDFD. -/
theorem netChecksum_correct_ones :
    netChecksum (putBe16 (fun _ => 1) 4 (netChecksum (fun _ => 1) 4)) (4 + 2) = 0 :=
  ((netChecksum_correct (fun _ => 1) 4 (by decide)).2.2.2 (by decide)).1

section Transport

def addAddress (ip : Bytes) (sum : Nat) : Nat := u32 (u32 (sum + beWord ip 0) + beWord ip 2)

/-- `src_bytes` and `dst_bytes`. -/
def addressBytes (ip : UInt32) : Bytes := fun i => List.getD [
    byteOf ip.toNat 3, byteOf ip.toNat 2, byteOf ip.toNat 1, byteOf ip.toNat 0] i 0

def netPseudoChecksum (src dst : UInt32) (protocol : UInt8) (data : Bytes) (len : Nat) : Nat :=
  let sum := addAddress (addressBytes dst) (addAddress (addressBytes src) 0)
  let sum := u32 (sum + protocol.toNat)
  let sum := u32 (sum + len % 2 ^ 16)
  complement (foldCarries (sumWords data len 0 sum))

/-- The body that `net_udp_checksum` and `net_tcp_checksum` share; `none` is the null pointer. -/
def transportChecksum (protocol : Nat) (srcIp dstIp data : Option Bytes) (len : Nat) : Nat :=
  match srcIp, dstIp, data with
  | some srcIp, some dstIp, some data =>
    let sum := addAddress dstIp (addAddress srcIp 0)
    let sum := u32 (sum + netHtons protocol)
    let sum := u32 (sum + netHtons (len % 2 ^ 16))
    complement (foldCarries (sumWords data len 0 sum))
  | _, _, _ => 0

def ipprotoTcp : Nat := 6

def ipprotoUdp : Nat := 17

def netUdpChecksum (srcIp dstIp data : Option Bytes) (len : Nat) : Nat :=
  transportChecksum ipprotoUdp srcIp dstIp data len

def netTcpChecksum (srcIp dstIp data : Option Bytes) (len : Nat) : Nat :=
  transportChecksum ipprotoTcp srcIp dstIp data len

/-- The big-endian value of the four bytes of an address. -/
def addressValue (ip : Bytes) : UInt32 := UInt32.ofNat (beWord ip 0 * 65536 + beWord ip 2)

def pseudoHeader (src dst : Bytes) (protocol len : Nat) : List Nat :=
  [beWord src 0, beWord src 2, beWord dst 0, beWord dst 2, protocol, len]

/-- The checksum of a list of words: the complement of their one's-complement sum. -/
def internetChecksum (words : List Nat) : Nat := 0xFFFF - onesSum 0xFFFF words

variable {src dst data ip : Bytes} {protocol p q len : Nat}

theorem beWord_addressBytes (ip : Bytes) :
    beWord (addressBytes (addressValue ip)) 0 = beWord ip 0 ∧
      beWord (addressBytes (addressValue ip)) 2 = beWord ip 2 := by
  have hhigh := beWord_le ip 0
  have hlow := beWord_le ip 2
  have hvalue : (addressValue ip).toNat = beWord ip 0 * 65536 + beWord ip 2 := by
    rw [addressValue, UInt32.toNat_ofNat']
    omega
  have hbyte : ∀ k, (byteOf (addressValue ip).toNat k).toNat =
      (beWord ip 0 * 65536 + beWord ip 2) / 2 ^ (8 * k) % 256 := fun k => by
    rw [byteOf_toNat, hvalue]
  have h0 : (addressBytes (addressValue ip) 0).toNat = _ := hbyte 3
  have h1 : (addressBytes (addressValue ip) (0 + 1)).toNat = _ := hbyte 2
  have h2 : (addressBytes (addressValue ip) 2).toNat = _ := hbyte 1
  have h3 : (addressBytes (addressValue ip) (2 + 1)).toNat = _ := hbyte 0
  rw [beWord_eq, beWord_eq (addressBytes _) 2, h0, h1, h2, h3]
  omega

theorem pseudoHeader_append_le {l : List Nat} (hp : p ≤ 0xFFFF) (hq : q ≤ 0xFFFF)
    (hl : ∀ x ∈ l, x ≤ 0xFFFF) : ∀ x ∈ pseudoHeader src dst p q ++ l, x ≤ 0xFFFF := by
  intro x hx
  rcases List.mem_append.mp hx with hx | hx
  · have hs0 := beWord_le src 0
    have hs2 := beWord_le src 2
    have hd0 := beWord_le dst 0
    have hd2 := beWord_le dst 2
    simp only [pseudoHeader, List.mem_cons, List.not_mem_nil, or_false] at hx
    omega
  · exact hl x hx

theorem checksum_run (hp : p ≤ 0xFFFF) (hq : q ≤ 0xFFFF) (hlen : len ≤ 65535) :
    complement (foldCarries (sumWords data len 0
        (u32 (u32 (addAddress dst (addAddress src 0) + p) + q)))) =
      internetChecksum (pseudoHeader src dst p q ++ bigEndianWords data len 0) := by
  have hs0 := beWord_le src 0
  have hs2 := beWord_le src 2
  have hd0 := beWord_le dst 0
  have hd2 := beWord_le dst 2
  have hwords := bigEndianWords_sum_le data len 0
  have hstart : u32 (u32 (addAddress dst (addAddress src 0) + p) + q) =
      (pseudoHeader src dst p q).sum := by
    simp only [addAddress, u32, pseudoHeader, List.sum_cons, List.sum_nil]
    omega
  have hsmall : (pseudoHeader src dst p q).sum ≤ 6 * 0xFFFF := by
    simp only [pseudoHeader, List.sum_cons, List.sum_nil]
    omega
  have hle : ∀ x ∈ pseudoHeader src dst p q ++ bigEndianWords data len 0, x ≤ 0xFFFF :=
    pseudoHeader_append_le hp hq (bigEndianWords_le data len 0)
  rw [hstart, sumWords_eq data len 0 _ (by omega), ← List.sum_append, complement_foldCarries hle,
    internetChecksum]

theorem netPseudoChecksum_eq (src dst : Bytes) (protocol : UInt8) (data : Bytes)
    (hlen : len ≤ 65535) :
    netPseudoChecksum (addressValue src) (addressValue dst) protocol data len =
      internetChecksum (pseudoHeader src dst protocol.toNat len ++ bigEndianWords data len 0) := by
  have hproto := protocol.toNat_lt
  have hsrc := beWord_addressBytes src
  have hdst := beWord_addressBytes dst
  have hheader : pseudoHeader (addressBytes (addressValue src)) (addressBytes (addressValue dst))
      protocol.toNat len = pseudoHeader src dst protocol.toNat len := by
    rw [pseudoHeader, hsrc.1, hsrc.2, hdst.1, hdst.2, pseudoHeader]
  have hmod : len % 2 ^ 16 = len := Nat.mod_eq_of_lt (by omega)
  rw [netPseudoChecksum, hmod, checksum_run (by omega) hlen hlen, hheader]

theorem transportChecksum_eq (hlen : len ≤ 65535) :
    transportChecksum protocol (some src) (some dst) (some data) len =
      internetChecksum (pseudoHeader src dst (swap16 protocol) (swap16 len) ++
        bigEndianWords data len 0) := by
  have hp := swap16_lt protocol
  have hq := swap16_lt len
  have hmod : len % 2 ^ 16 = len := Nat.mod_eq_of_lt (by omega)
  rw [transportChecksum, hmod, netHtons_eq, netHtons_eq, checksum_run (by omega) (by omega) hlen]

/-- The protocol and the length may be exchanged bytewise exactly when 257 divides their sum: an
exchange multiplies by 256, and 255 times 257 is 65535. -/
theorem internetChecksum_swapped (l : List Nat) (hl : ∀ x ∈ l, x ≤ 0xFFFF) (hp : 0 < protocol)
    (hp' : protocol < 256) (hlen : len ≤ 65535) :
    internetChecksum (pseudoHeader src dst (swap16 protocol) (swap16 len) ++ l) =
      internetChecksum (pseudoHeader src dst protocol len ++ l) ↔ 257 ∣ len + protocol := by
  have hword : ∀ {p q : Nat}, p ≤ 0xFFFF → q ≤ 0xFFFF →
      Folds 0xFFFF (onesSum 0xFFFF (pseudoHeader src dst p q ++ l))
        (beWord src 0 + beWord src 2 + beWord dst 0 + beWord dst 2 + l.sum + (p + q)) := by
    intro p q hp hq
    have hsum : (pseudoHeader src dst p q ++ l).sum =
        beWord src 0 + beWord src 2 + beWord dst 0 + beWord dst 2 + l.sum + (p + q) := by
      rw [List.sum_append]
      simp only [pseudoHeader, List.sum_cons, List.sum_nil]
      omega
    exact hsum ▸ folds_onesSum (pseudoHeader_append_le hp hq hl)
  have hswapped := hword (Nat.le_of_lt_succ (swap16_lt protocol)) (Nat.le_of_lt_succ (swap16_lt len))
  have hplain := hword (show protocol ≤ 0xFFFF by omega) hlen
  have hle := hswapped.le
  have hle' := hplain.le
  have hsame := hswapped.eq_iff hplain
  have hpos : swap16 protocol + swap16 len ≠ 0 := by
    rw [swap16, swap16]
    omega
  have hres : swap16 protocol + swap16 len ≡ protocol + len [MOD 0xFFFF] ↔
      257 ∣ len + protocol := by
    have hscale : swap16 protocol + swap16 len ≡ 256 * (len + protocol) [MOD 0xFFFF] := by
      rw [Nat.add_comm len, Nat.mul_add]
      exact (swap16_modEq (by omega)).add (swap16_modEq (by omega))
    change _ % 0xFFFF = _ % 0xFFFF ↔ _
    rw [hscale]
    omega
  have hcancel : beWord src 0 + beWord src 2 + beWord dst 0 + beWord dst 2 + l.sum +
      (swap16 protocol + swap16 len) ≡ beWord src 0 + beWord src 2 + beWord dst 0 + beWord dst 2 +
      l.sum + (protocol + len) [MOD 0xFFFF] ↔
      swap16 protocol + swap16 len ≡ protocol + len [MOD 0xFFFF] :=
    ⟨Nat.ModEq.add_left_cancel' _, Nat.ModEq.add_left _⟩
  rw [hcancel, hres] at hsame
  rw [internetChecksum, internetChecksum]
  constructor
  · intro h
    exact (hsame.mp (by omega)).1
  · intro h
    rw [hsame.mpr ⟨h, by omega⟩]

theorem transportChecksum_eq_iff (hp : 0 < protocol) (hp' : protocol < 256) (hlen : len ≤ 65535) :
    transportChecksum protocol (some src) (some dst) (some data) len =
      internetChecksum (pseudoHeader src dst protocol len ++ bigEndianWords data len 0) ↔
      257 ∣ len + protocol := by
  rw [transportChecksum_eq hlen]
  exact internetChecksum_swapped _ (bigEndianWords_le data len 0) hp hp' hlen

end Transport

/-- `net_pseudo_checksum` is the checksum of pseudo-header and payload. The other two agree with it
exactly when 257 divides the length and the protocol number together. -/
theorem transport_checksums_agree_iff (srcIp dstIp data : Bytes) (len : Nat) (hlen : len ≤ 65535) :
    (∀ protocol : UInt8,
      netPseudoChecksum (addressValue srcIp) (addressValue dstIp) protocol data len =
        internetChecksum (pseudoHeader srcIp dstIp protocol.toNat len ++ bigEndianWords data len 0)) ∧
    (netUdpChecksum (some srcIp) (some dstIp) (some data) len =
        netPseudoChecksum (addressValue srcIp) (addressValue dstIp) 17 data len ∧
      netUdpChecksum (some srcIp) (some dstIp) (some data) len =
        internetChecksum (pseudoHeader srcIp dstIp 17 len ++ bigEndianWords data len 0) ↔
      257 ∣ len + 17) ∧
    (netTcpChecksum (some srcIp) (some dstIp) (some data) len =
        netPseudoChecksum (addressValue srcIp) (addressValue dstIp) 6 data len ∧
      netTcpChecksum (some srcIp) (some dstIp) (some data) len =
        internetChecksum (pseudoHeader srcIp dstIp 6 len ++ bigEndianWords data len 0) ↔
      257 ∣ len + 6) := by
  have hpseudo := fun protocol : UInt8 => netPseudoChecksum_eq srcIp dstIp protocol data hlen
  have hudp : netPseudoChecksum (addressValue srcIp) (addressValue dstIp) 17 data len =
      internetChecksum (pseudoHeader srcIp dstIp 17 len ++ bigEndianWords data len 0) := hpseudo 17
  have htcp : netPseudoChecksum (addressValue srcIp) (addressValue dstIp) 6 data len =
      internetChecksum (pseudoHeader srcIp dstIp 6 len ++ bigEndianWords data len 0) := hpseudo 6
  refine ⟨hpseudo, ?_, ?_⟩
  · rw [hudp, and_self, netUdpChecksum]
    exact transportChecksum_eq_iff (by decide) (by decide) hlen
  · rw [htcp, and_self, netTcpChecksum]
    exact transportChecksum_eq_iff (by decide) (by decide) hlen

/-- A UDP payload of 240 bytes, where the two happen to agree. -/
theorem transport_checksums_agree_240 :
    netUdpChecksum (some (addressBytes 0x0A00020F)) (some (addressBytes 0x0A000202))
        (some fun _ => 0) 240 =
      netPseudoChecksum (addressValue (addressBytes 0x0A00020F))
        (addressValue (addressBytes 0x0A000202)) 17 (fun _ => 0) 240 :=
  ((transport_checksums_agree_iff (addressBytes 0x0A00020F) (addressBytes 0x0A000202) (fun _ => 0)
    240 (by decide)).2.1.mpr (by decide)).1

/-- Eight zero bytes from 10.0.2.15 to 10.0.2.2. -/
theorem transport_checksums_differ :
    netUdpChecksum (some (addressBytes 0x0A00020F)) (some (addressBytes 0x0A000202))
        (some fun _ => 0) 8 ≠
      netPseudoChecksum (addressValue (addressBytes 0x0A00020F))
        (addressValue (addressBytes 0x0A000202)) 17 (fun _ => 0) 8 ∧
    netTcpChecksum (some (addressBytes 0x0A00020F)) (some (addressBytes 0x0A000202))
        (some fun _ => 0) 8 ≠
      netPseudoChecksum (addressValue (addressBytes 0x0A00020F))
        (addressValue (addressBytes 0x0A000202)) 6 (fun _ => 0) 8 := by
  rw [netPseudoChecksum_eq _ _ _ _ (by decide), netPseudoChecksum_eq _ _ _ _ (by decide)]
  constructor
  · exact (transportChecksum_eq_iff (by decide) (by decide) (by decide)).not.mpr (by decide)
  · exact (transportChecksum_eq_iff (by decide) (by decide) (by decide)).not.mpr (by decide)

end CfKernel.Net
