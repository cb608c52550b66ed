import CfKernel.Net.Arp

/-!
# The text of a hardware address

`net_ethernet_format_mac`. A turn of its loop asks for room for an octet, its separator and the
terminator, but the last octet has no separator: with a buffer of eighteen bytes, which would do,
that octet is left out.
-/

namespace CfKernel.Net

open Lib Function

def hexDigit (v : Nat) : UInt8 :=
  [0x30, 0x31, 0x32, 0x33, 0x34, 0x35, 0x36, 0x37, 0x38, 0x39,
    0x41, 0x42, 0x43, 0x44, 0x45, 0x46].getD v 0

/-- The loop, with `n` turns left: `i` is `6 - n`. -/
def formatFrom (mac : MacAddr) (outLen : Nat) : Nat → Bytes → Nat → Bytes × Nat
  | 0, out, written => (out, written)
  | n + 1, out, written =>
    if written + 3 < outLen then
      let value := (mac (Fin.ofNat 6 (5 - n))).toNat
      let out := update out written (hexDigit ((value >>> 4) &&& 0xF))
      let out := update out (written + 1) (hexDigit (value &&& 0xF))
      if 5 - n + 1 < 6 ∧ written + 2 + 1 < outLen then
        formatFrom mac outLen n (update out (written + 2) 0x3A) (written + 3)
      else formatFrom mac outLen n out (written + 2)
    else (out, written)

def netEthernetFormatMac (mac : MacAddr) (out : Bytes) (outLen : Nat) : Bytes :=
  if outLen = 0 then out
  else
    let (out, written) := formatFrom mac outLen 6 out 0
    if written < outLen then update out written 0 else update out (outLen - 1) 0

/-- The character at `k` of `XX:XX:XX:XX:XX:XX`. -/
def macText (mac : MacAddr) (k : Nat) : UInt8 :=
  let value := (mac (Fin.ofNat 6 (k / 3))).toNat
  if k % 3 = 0 then hexDigit ((value >>> 4) &&& 0xF)
  else if k % 3 = 1 then hexDigit (value &&& 0xF)
  else 0x3A

variable {mac : MacAddr} {outLen n w : Nat} {out before : Bytes}

theorem macText_ne_zero (mac : MacAddr) (k : Nat) : macText mac k ≠ 0 := by
  have hdigit : ∀ v < 16, hexDigit v ≠ 0 := by decide
  have hmask : ∀ x, x &&& 0xF < 16 := fun x => Nat.lt_succ_of_le Nat.and_le_right
  unfold macText
  split_ifs
  · exact hdigit _ (hmask _)
  · exact hdigit _ (hmask _)
  · decide

theorem macText_octet (mac : MacAddr) {i : Nat} :
    macText mac (3 * i) = hexDigit (((mac (Fin.ofNat 6 i)).toNat >>> 4) &&& 0xF) ∧
      macText mac (3 * i + 1) = hexDigit ((mac (Fin.ofNat 6 i)).toNat &&& 0xF) ∧
      macText mac (3 * i + 2) = 0x3A := by
  simp [macText, Nat.mul_add_div]

/-- How many characters there is room for, as the loop counts. -/
def macLen (outLen : Nat) : Nat := min 17 (3 * ((outLen - 1) / 3))

/-- The text as far as it is written, in a buffer that is otherwise as before from `outLen` on. -/
structure TextTo (mac : MacAddr) (outLen : Nat) (before out : Bytes) (w : Nat) : Prop where
  text : ∀ k < w, out k = macText mac k
  inside : ∀ k, outLen ≤ k → out k = before k

theorem TextTo.push (h : TextTo mac outLen before out w) (hroom : w < outLen) :
    TextTo mac outLen before (update out w (macText mac w)) (w + 1) where
  text k hk := by
    rcases Nat.lt_succ_iff_lt_or_eq.mp hk with hlt | rfl
    · rw [update_of_ne hlt.ne, h.text k hlt]
    · exact update_self ..
  inside k hk := by rw [update_of_ne (hroom.trans_le hk).ne', h.inside k hk]

theorem formatFrom_spec (hn : n ≤ 6) (hw : w = min 17 (3 * (6 - n)))
    (hle : w ≤ macLen outLen) (h : TextTo mac outLen before out w) :
    ∃ out', formatFrom mac outLen n out w = (out', macLen outLen) ∧
      TextTo mac outLen before out' (macLen outLen) := by
  have hlen : macLen outLen = min 17 (3 * ((outLen - 1) / 3)) := rfl
  induction n generalizing out w with
  | zero =>
    have hlast : macLen outLen = w := by omega
    exact ⟨out, by rw [formatFrom, hlast], hlast ▸ h⟩
  | succ n ih =>
    obtain rfl : w = 3 * (5 - n) := by omega
    rw [formatFrom]
    split_ifs with hroom hmore
    · obtain ⟨hhigh, hlow, hcolon⟩ := macText_octet mac (i := 5 - n)
      have htext := ((h.push (by omega)).push (by omega)).push (by omega)
      rw [hhigh, hlow, hcolon] at htext
      exact ih (by omega) (by omega) (by omega) htext
    · obtain ⟨hhigh, hlow, -⟩ := macText_octet mac (i := 5 - n)
      have htext := (h.push (by omega)).push (by omega)
      rw [hhigh, hlow] at htext
      exact ih (by omega) (by omega) (by omega) htext
    · have hlast : macLen outLen = 3 * (5 - n) := by omega
      exact ⟨out, by rw [hlast], hlast ▸ h⟩

theorem formatMac_run (mac : MacAddr) (out : Bytes) (h : 0 < outLen) :
    ∃ text, TextTo mac outLen out text (macLen outLen) ∧
      netEthernetFormatMac mac out outLen = update text (macLen outLen) 0 := by
  have hlen : macLen outLen = min 17 (3 * ((outLen - 1) / 3)) := rfl
  obtain ⟨text, hrun, htext⟩ := formatFrom_spec le_rfl (w := 0) rfl (Nat.zero_le _)
    (⟨by simp, fun _ _ => rfl⟩ : TextTo mac outLen out out 0)
  refine ⟨text, htext, ?_⟩
  rw [netEthernetFormatMac, if_neg h.ne', hrun]
  exact if_pos (by omega)

/-- The buffer holds the text, or as much of its beginning as there is room for. -/
def FormatsMac (mac : MacAddr) (out : Bytes) (outLen : Nat) : Prop :=
  (∀ k, outLen ≤ k → netEthernetFormatMac mac out outLen k = out k) ∧
  (0 < outLen → ∃ len < outLen, len ≤ 17 ∧ (18 ≤ outLen → len = 17) ∧
    netEthernetFormatMac mac out outLen len = 0 ∧
    ∀ k < len, netEthernetFormatMac mac out outLen k = macText mac k)

theorem formatMac_right_iff (mac : MacAddr) (out : Bytes) (outLen : Nat) :
    FormatsMac mac out outLen ↔ outLen ≠ 18 := by
  rcases Nat.eq_zero_or_pos outLen with rfl | hpos
  · exact iff_of_true ⟨fun _ _ => rfl, fun h => absurd h (lt_irrefl 0)⟩ (by decide)
  have hlen : macLen outLen = min 17 (3 * ((outLen - 1) / 3)) := rfl
  obtain ⟨text, htext, hrun⟩ := formatMac_run mac out hpos
  rw [FormatsMac, hrun]
  constructor
  · rintro ⟨-, hlen⟩ rfl
    obtain ⟨len, -, -, hfull, -, hprefix⟩ := hlen hpos
    refine macText_ne_zero mac 15 ?_
    rw [← hprefix 15 (by rw [hfull le_rfl]; decide)]
    exact update_self ..
  · refine fun hne => ⟨fun k hk => ?_, fun _ => ⟨macLen outLen, by omega, by omega,
      by omega, update_self .., fun k hk => ?_⟩⟩
    · rw [update_of_ne (by omega), htext.inside k hk]
    · rw [update_of_ne hk.ne, htext.text k hk]

theorem formatMac_eighteen : ¬ FormatsMac (fun _ => 0) (fun _ => 0) 18 := by
  rintro ⟨-, hlen⟩
  obtain ⟨len, -, -, hfull, -, hprefix⟩ := hlen (by decide)
  have hlast := hprefix 15 (by rw [hfull le_rfl]; decide)
  revert hlast
  decide

end CfKernel.Net
