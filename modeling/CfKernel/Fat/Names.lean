import Mathlib.Data.List.TakeWhile
import CfKernel.Fat.Dir

/-!
# Names

How `strcasecmp` compares names, and how `fat_make_short_name` and `fat_name_to_str` undo each
other: a name that does not end in a dot is read back up to the case of its letters.
-/

namespace CfKernel.Fat

variable {x y sn name base ext : List UInt8} {inExt : Bool} {c : UInt8}

theorem toLowerAscii_eq_dot {c : UInt8} : toLowerAscii c = 0x2E ↔ c = 0x2E := by
  unfold toLowerAscii
  split_ifs <;> grind

theorem strcasecmpEq_iff : strcasecmpEq x y = true ↔ x.map toLowerAscii = y.map toLowerAscii := by
  fun_induction strcasecmpEq x y with
  | case1 => simp
  | case2 a as b bs ih => simp [ih]
  | case3 x y h1 h2 =>
    cases x with
    | nil =>
      cases y with
      | nil => exact absurd rfl (h1 rfl)
      | cons b bs => simp
    | cons a as =>
      cases y with
      | nil => simp
      | cons b bs => exact absurd rfl (h2 a as b bs rfl)

theorem isDotName_map (x : List UInt8) : isDotName (x.map toLowerAscii) = isDotName x := by
  match x with
  | [] => rfl
  | [a] => simp [isDotName, toLowerAscii_eq_dot]
  | [a, b] => simp [isDotName, toLowerAscii_eq_dot]
  | a :: b :: c :: x => simp [isDotName]

theorem isDotName_of_strcasecmpEq (h : strcasecmpEq x y = true) : isDotName x = isDotName y := by
  rw [← isDotName_map x, strcasecmpEq_iff.mp h, isDotName_map]

/-- Base and extension, each padded with blanks. -/
def padded (base ext : List UInt8) : List UInt8 :=
  (base ++ List.replicate (8 - base.length) 0x20) ++
    (ext ++ List.replicate (3 - ext.length) 0x20)

/-- The name as typed; `inExt` says whether its dot was read. -/
def dotted (base ext : List UInt8) (inExt : Bool) : List UInt8 :=
  if inExt then base ++ 0x2E :: ext else base

/-- A character that `fat_make_short_name` stores. -/
def ShortChar (c : UInt8) : Prop := 0x20 < c ∧ c < 0x7F ∧ c ≠ 0x2E

/-- What `fat_make_short_name` has stored at some point of its loop. -/
structure ShortParts (base ext : List UInt8) (inExt : Bool) : Prop where
  base_le : base.length ≤ 8
  ext_le : ext.length ≤ 3
  ext_nil : inExt = false → ext = []
  base_ne : inExt = true → base ≠ []
  base_char : ∀ c ∈ base, ShortChar c
  ext_char : ∀ c ∈ ext, ShortChar c

def AllowedChar (c : UInt8) : Prop :=
  c ≠ 0x2E ∧ ¬ (c ≤ 0x20 ∨ c ≥ 0x7F ∨ c ∈ shortNameExcluded)

instance (c : UInt8) : Decidable (AllowedChar c) := inferInstanceAs (Decidable (_ ∧ _))

def toUpperAscii (c : UInt8) : UInt8 := if 0x61 ≤ c ∧ c ≤ 0x7A then c - 0x61 + 0x41 else c

/-- A base of one to eight characters, and an extension of at most three when there is a dot. -/
structure ShortForm (base ext : List UInt8) (inExt : Bool) : Prop where
  base_ne : base ≠ []
  base_le : base.length ≤ 8
  ext_le : ext.length ≤ 3
  ext_nil : inExt = false → ext = []
  base_char : ∀ c ∈ base, AllowedChar c
  ext_char : ∀ c ∈ ext, AllowedChar c

theorem padded_set_base (c : UInt8) (hb : base.length < 8) :
    (padded base ext).set base.length c = padded (base ++ [c]) ext := by
  obtain ⟨k, hk⟩ : ∃ k, 8 - base.length = k + 1 := ⟨7 - base.length, by omega⟩
  have hk' : 8 - (base ++ [c]).length = k := by
    rw [List.length_append, List.length_singleton]
    omega
  rw [padded, padded, hk, hk', List.replicate_succ, List.set_append_left _ _ (by simp),
    List.set_append_right _ _ le_rfl]
  simp

theorem padded_set_ext (c : UInt8) (hb : base.length ≤ 8) (he : ext.length < 3) :
    (padded base ext).set (8 + ext.length) c = padded base (ext ++ [c]) := by
  obtain ⟨k, hk⟩ : ∃ k, 3 - ext.length = k + 1 := ⟨2 - ext.length, by omega⟩
  have hk' : 3 - (ext ++ [c]).length = k := by
    rw [List.length_append, List.length_singleton]
    omega
  have hlen : (base ++ List.replicate (8 - base.length) (0x20 : UInt8)).length = 8 := by
    rw [List.length_append, List.length_replicate]
    omega
  rw [padded, padded, hk, hk', List.replicate_succ, List.set_append_right _ _ (by omega), hlen,
    Nat.add_sub_cancel_left, List.set_append_right _ _ le_rfl]
  simp

section Loop

theorem fatShortChars_ext_iff {cs out : List UInt8} (ext : List UInt8) (hb : base.length ≤ 8)
    (he : ext.length ≤ 3) :
    fatShortChars cs (padded base ext) base.length ext.length true = .ok out ↔
      (∀ c ∈ cs, AllowedChar c) ∧ ext.length + cs.length ≤ 3 ∧
        out = padded base (ext ++ cs.map toUpperAscii) := by
  induction cs generalizing ext with
  | nil =>
    rw [fatShortChars]
    simp [he, eq_comm]
  | cons c cs ih =>
    rw [fatShortChars, List.forall_mem_cons, List.length_cons, List.map_cons]
    by_cases hdot : c = 0x2E
    · rw [if_pos hdot, if_pos (.inl rfl)]
      exact iff_of_false nofun fun h => h.1.1.1 hdot
    rw [if_neg hdot]
    by_cases hbad : c ≤ 0x20 ∨ c ≥ 0x7F ∨ c ∈ shortNameExcluded
    · rw [if_pos hbad]
      exact iff_of_false nofun fun h => h.1.1.2 hbad
    rw [if_neg hbad]
    rw [if_pos rfl]
    by_cases hlen : ext.length + 1 > 3
    · rw [if_pos hlen]
      exact iff_of_false nofun fun h => by omega
    have hnext := ih (ext ++ [toUpperAscii c]) (by simp; omega)
    rw [List.length_append, List.length_singleton, List.append_assoc, List.singleton_append]
      at hnext
    rw [if_neg hlen, padded_set_ext _ hb (by omega)]
    refine hnext.trans (and_congr ?_ (and_congr_left' ?_))
    · exact ⟨fun h => ⟨⟨hdot, hbad⟩, h⟩, fun h => h.2⟩
    · omega

theorem cons_eq_dotted {cs b e : List UInt8} {dot : Bool} :
    c :: cs = dotted b e dot ↔ (∃ b', b = c :: b' ∧ cs = dotted b' e dot) ∨
      (b = [] ∧ dot = true ∧ c = 0x2E ∧ cs = e) := by
  cases b with
  | nil => cases dot <;> simp [dotted]
  | cons a b => cases dot <;> simp [dotted, eq_comm]

/-- What may still come while the base is read. -/
structure ShortRest (base cs out b e : List UInt8) (dot : Bool) : Prop where
  spelled : cs = dotted b e dot
  base_char : ∀ c ∈ b, AllowedChar c
  ext_char : ∀ c ∈ e, AllowedChar c
  base_le : base.length + b.length ≤ 8
  ext_le : e.length ≤ 3
  base_ne : dot = true → base ++ b ≠ []
  ext_nil : dot = false → e = []
  stored : out = padded (base ++ b.map toUpperAscii) (e.map toUpperAscii)

theorem fatShortChars_base_iff {cs out : List UInt8} (base : List UInt8) (hb : base.length ≤ 8) :
    fatShortChars cs (padded base []) base.length 0 false = .ok out ↔
      ∃ b e dot, ShortRest base cs out b e dot := by
  induction cs generalizing base with
  | nil =>
    rw [fatShortChars]
    constructor
    · intro h
      cases h
      exact ⟨[], [], false, by simp [dotted], by simp, by simp, hb, by simp, by simp, by simp,
        by simp⟩
    · rintro ⟨b, e, dot, h⟩
      have hspelled := h.spelled
      cases dot with
      | true => simp [dotted] at hspelled
      | false =>
        obtain rfl : b = [] := by simpa [dotted, eq_comm] using hspelled
        obtain rfl := h.ext_nil rfl
        rw [h.stored]
        simp
  | cons c cs ih =>
    rw [fatShortChars]
    by_cases hdot : c = 0x2E
    · rw [if_pos hdot]
      -- A dot cannot be a character of the base, so the extension begins here.
      have hhere : ∀ b e dot, ShortRest base (c :: cs) out b e dot →
          b = [] ∧ dot = true ∧ cs = e := by
        intro b e dot h
        rcases cons_eq_dotted.mp h.spelled with ⟨b', rfl, -⟩ | ⟨hb, hd, -, he⟩
        · exact absurd hdot (h.base_char c List.mem_cons_self).1
        · exact ⟨hb, hd, he⟩
      by_cases hempty : base.length = 0
      · rw [if_pos (.inr hempty)]
        refine iff_of_false nofun ?_
        rintro ⟨b, e, dot, h⟩
        obtain ⟨rfl, rfl, -⟩ := hhere b e dot h
        exact h.base_ne rfl (by rw [List.append_nil, List.eq_nil_of_length_eq_zero hempty])
      · rw [if_neg (by simpa using hempty)]
        refine (fatShortChars_ext_iff [] hb (by simp)).trans ⟨?_, ?_⟩
        · rintro ⟨hchar, hlen, hout⟩
          refine ⟨[], cs, true, by simp [dotted, hdot], by simp, hchar, by simpa using hb,
            by simpa using hlen, fun _ hnil => hempty (by simpa using hnil), by simp, ?_⟩
          simpa using hout
        · rintro ⟨b, e, dot, h⟩
          obtain ⟨rfl, rfl, rfl⟩ := hhere b e dot h
          exact ⟨h.ext_char, by simpa using h.ext_le, by simpa using h.stored⟩
    rw [if_neg hdot]
    -- Any other character is one of the base.
    have hhere : ∀ b e dot, ShortRest base (c :: cs) out b e dot →
        ∃ b', b = c :: b' ∧ cs = dotted b' e dot := by
      intro b e dot h
      rcases cons_eq_dotted.mp h.spelled with h | ⟨-, -, hc, -⟩
      · exact h
      · exact absurd hc hdot
    by_cases hbad : c ≤ 0x20 ∨ c ≥ 0x7F ∨ c ∈ shortNameExcluded
    · rw [if_pos hbad]
      refine iff_of_false nofun ?_
      rintro ⟨b, e, dot, h⟩
      obtain ⟨b', rfl, -⟩ := hhere b e dot h
      exact (h.base_char c List.mem_cons_self).2 hbad
    rw [if_neg hbad]
    rw [if_neg (by decide)]
    by_cases hlen : base.length + 1 > 8
    · rw [if_pos hlen]
      refine iff_of_false nofun ?_
      rintro ⟨b, e, dot, h⟩
      obtain ⟨b', rfl, -⟩ := hhere b e dot h
      have := h.base_le
      rw [List.length_cons] at this
      omega
    have hnext := ih (base ++ [toUpperAscii c]) (by simp; omega)
    rw [List.length_append, List.length_singleton] at hnext
    rw [if_neg hlen, padded_set_base _ (by omega)]
    refine hnext.trans ⟨?_, ?_⟩
    · rintro ⟨b, e, dot, h⟩
      refine ⟨c :: b, e, dot, cons_eq_dotted.mpr (.inl ⟨b, rfl, h.spelled⟩), ?_, h.ext_char, ?_,
        h.ext_le, by simp, h.ext_nil, ?_⟩
      · rw [List.forall_mem_cons]
        exact ⟨⟨hdot, hbad⟩, h.base_char⟩
      · have := h.base_le
        rw [List.length_append, List.length_singleton] at this
        rw [List.length_cons]
        omega
      · simpa using h.stored
    · rintro ⟨b, e, dot, h⟩
      obtain ⟨b', rfl, hcs⟩ := hhere b e dot h
      refine ⟨b', e, dot, hcs, fun a ha => h.base_char a (List.mem_cons_of_mem c ha), h.ext_char,
        ?_, h.ext_le, by simp, h.ext_nil, by simpa using h.stored⟩
      have := h.base_le
      rw [List.length_cons] at this
      rw [List.length_append, List.length_singleton]
      omega

end Loop

theorem fatMakeShortName_iff : fatMakeShortName name = .ok sn ↔
    ∃ base ext inExt, ShortForm base ext inExt ∧ name = dotted base ext inExt ∧
      sn = padded (base.map toUpperAscii) (ext.map toUpperAscii) := by
  rw [fatMakeShortName]
  split_ifs with hnil
  · refine iff_of_false nofun ?_
    rintro ⟨base, ext, inExt, h, hname, -⟩
    rw [hnil] at hname
    cases inExt with
    | true => simp [dotted] at hname
    | false => exact h.base_ne hname.symm
  refine (fatShortChars_base_iff [] (by simp)).trans ⟨?_, ?_⟩
  · rintro ⟨base, ext, inExt, h⟩
    have hne : base ≠ [] := by
      rintro rfl
      cases inExt with
      | true => exact h.base_ne rfl rfl
      | false => exact hnil h.spelled
    exact ⟨base, ext, inExt, ⟨hne, by simpa using h.base_le, h.ext_le, h.ext_nil, h.base_char,
      h.ext_char⟩, h.spelled, h.stored⟩
  · rintro ⟨base, ext, inExt, h, hname, hsn⟩
    exact ⟨base, ext, inExt, hname, h.base_char, h.ext_char, by simpa using h.base_le, h.ext_le,
      fun _ => h.base_ne, h.ext_nil, hsn⟩

section Upper

theorem toUpperAscii_eq_dot : toUpperAscii c = 0x2E ↔ c = 0x2E := by
  unfold toUpperAscii
  split_ifs <;> grind

theorem toUpperAscii_idem (c : UInt8) : toUpperAscii (toUpperAscii c) = toUpperAscii c := by
  unfold toUpperAscii
  split_ifs <;> grind

theorem map_toUpperAscii_idem (x : List UInt8) :
    (x.map toUpperAscii).map toUpperAscii = x.map toUpperAscii := by
  rw [List.map_map]
  exact List.map_congr_left fun c _ => toUpperAscii_idem c

theorem AllowedChar.upper (h : AllowedChar c) : AllowedChar (toUpperAscii c) := by
  refine ⟨fun hdot => h.1 (toUpperAscii_eq_dot.mp hdot), ?_⟩
  have hc := h.2
  unfold toUpperAscii
  by_cases hlower : 0x61 ≤ c ∧ c ≤ 0x7A
  · rw [if_pos hlower]
    have hcapital : 0x41 ≤ c - 0x61 + 0x41 ∧ c - 0x61 + 0x41 ≤ 0x5A := by grind
    generalize c - 0x61 + 0x41 = u at hcapital
    rintro (hu | hu | hu)
    · grind
    · grind
    · simp only [shortNameExcluded, List.mem_cons, List.not_mem_nil, or_false] at hu
      rcases hu with rfl | rfl | rfl | rfl | rfl | rfl | rfl | rfl | rfl <;>
        exact absurd hcapital (by decide)
  · rwa [if_neg hlower]

theorem toLowerAscii_toUpperAscii (c : UInt8) : toLowerAscii (toUpperAscii c) = toLowerAscii c := by
  unfold toLowerAscii toUpperAscii
  split_ifs <;> grind

theorem AllowedChar.shortChar (h : AllowedChar c) : ShortChar (toUpperAscii c) := by
  obtain ⟨hdot, hbad⟩ := h.upper
  rw [not_or, not_or] at hbad
  exact ⟨UInt8.not_le.mp hbad.1, UInt8.not_le.mp hbad.2.1, hdot⟩

theorem ShortForm.parts (h : ShortForm base ext inExt) :
    ShortParts (base.map toUpperAscii) (ext.map toUpperAscii) inExt where
  base_le := by simpa using h.base_le
  ext_le := by simpa using h.ext_le
  ext_nil hin := by rw [h.ext_nil hin]; rfl
  base_ne _ := by simpa using h.base_ne
  base_char := by
    rw [List.forall_mem_map]
    exact fun c hc => (h.base_char c hc).shortChar
  ext_char := by
    rw [List.forall_mem_map]
    exact fun c hc => (h.ext_char c hc).shortChar

theorem ShortForm.upper (h : ShortForm base ext inExt) :
    ShortForm (base.map toUpperAscii) (ext.map toUpperAscii) (decide (ext ≠ [])) where
  base_ne := by simpa using h.base_ne
  base_le := by simpa using h.base_le
  ext_le := by simpa using h.ext_le
  ext_nil hin := by simpa using hin
  base_char := by
    rw [List.forall_mem_map]
    exact fun c hc => (h.base_char c hc).upper
  ext_char := by
    rw [List.forall_mem_map]
    exact fun c hc => (h.ext_char c hc).upper

end Upper

theorem fatMakeShortName_parts (h : fatMakeShortName name = .ok sn) :
    ∃ base ext inExt, sn = padded base ext ∧ ShortParts base ext inExt ∧ base ≠ [] ∧
      (dotted base ext inExt).map toLowerAscii = name.map toLowerAscii := by
  obtain ⟨base, ext, inExt, hform, rfl, rfl⟩ := fatMakeShortName_iff.mp h
  refine ⟨_, _, inExt, rfl, hform.parts, by simpa using hform.base_ne, ?_⟩
  have hlower : ∀ x : List UInt8, (x.map toUpperAscii).map toLowerAscii = x.map toLowerAscii := by
    intro x
    rw [List.map_map]
    exact List.map_congr_left fun c _ => toLowerAscii_toUpperAscii c
  cases inExt <;> simp [dotted, hlower]

/-- A short name has eleven characters, and its first one marks neither a free slot nor a dot
entry. -/
theorem fatMakeShortName_ok (h : fatMakeShortName name = .ok sn) : sn.length = 11 ∧
    ∃ ch, sn.head? = some ch ∧ ch ≠ 0 ∧ ch ≠ 0xE5 ∧ ch ≠ 0x20 ∧ ch ≠ 0x2E := by
  obtain ⟨base, ext, inExt, rfl, hp, hne, -⟩ := fatMakeShortName_parts h
  have hb := hp.base_le
  have he := hp.ext_le
  obtain ⟨ch, base', rfl⟩ := List.exists_cons_of_ne_nil hne
  obtain ⟨h1, h2, h3⟩ := hp.base_char ch (by simp)
  refine ⟨?_, ch, rfl, ?_, ?_, ?_, h3⟩
  · simp only [padded, List.length_append, List.length_replicate]
    omega
  · grind
  · grind
  · grind

theorem takeWhile_padding {l : List UInt8} (h : ∀ c ∈ l, ShortChar c) (k : Nat) :
    (l ++ List.replicate k 0x20).takeWhile (· ≠ 0x20) = l := by
  rw [List.takeWhile_append_of_pos fun c hc => by have := (h c hc).1; grind]
  cases k with
  | zero => simp
  | succ k => simp [List.replicate_succ]

theorem fatNameToStr_padded {inExt : Bool} (hp : ShortParts base ext inExt) :
    fatNameToStr (padded base ext) = if ext = [] then base else base ++ 0x2E :: ext := by
  have hlen : (base ++ List.replicate (8 - base.length) (0x20 : UInt8)).length = 8 := by
    have := hp.base_le
    rw [List.length_append, List.length_replicate]
    omega
  have htake : (padded base ext).take 8 = base ++ List.replicate (8 - base.length) 0x20 := by
    rw [padded, List.take_append_of_le_length hlen.ge, List.take_of_length_le hlen.le]
  have hdrop : (padded base ext).drop 8 = ext ++ List.replicate (3 - ext.length) 0x20 := by
    rw [padded, List.drop_append_of_le_length hlen.ge, List.drop_of_length_le hlen.le,
      List.nil_append]
  have hget : (padded base ext).getD 8 0x20 = ext.headD 0x20 := by
    rw [← Nat.add_zero 8, List.getD_eq_getElem?_getD, ← List.getElem?_drop, hdrop]
    cases ext <;> simp
  have hzero : ∀ c ∈ base ++ 0x2E :: ext, c ≠ 0 := by
    intro c hc
    rw [List.mem_append, List.mem_cons] at hc
    rcases hc with hc | rfl | hc
    · have := (hp.base_char c hc).1
      grind
    · decide
    · have := (hp.ext_char c hc).1
      grind
  rw [fatNameToStr, htake, hdrop, hget, takeWhile_padding hp.base_char,
    takeWhile_padding hp.ext_char]
  have hall : ∀ {l : List UInt8}, (∀ c ∈ l, c ≠ 0) → l.takeWhile (· ≠ 0) = l := fun h =>
    List.takeWhile_eq_self_iff.mpr fun c hc => by simpa using h c hc
  cases ext with
  | nil => simpa using hall fun c hc => hzero c (by simp [hc])
  | cons e ext =>
    have he : e ≠ 0x20 := by
      have := (hp.ext_char e (by simp)).1
      grind
    simpa [he] using hall hzero

theorem fatNameToStr_shortName (h : fatMakeShortName name = .ok sn)
    (hlast : name.getLast? ≠ some 0x2E) : strcasecmpEq (fatNameToStr sn) name = true := by
  obtain ⟨base, ext, inExt, rfl, hp, -, hmap⟩ := fatMakeShortName_parts h
  rw [strcasecmpEq_iff, fatNameToStr_padded hp, ← hmap, dotted]
  cases inExt with
  | false => simp [hp.ext_nil rfl]
  | true =>
    rw [if_pos rfl, if_neg]
    rintro rfl
    -- the dot was the last character
    have hget := congrArg List.getLast? hmap
    rw [dotted, if_pos rfl, List.getLast?_map, List.getLast?_map] at hget
    cases hn : name.getLast? with
    | none => simp [hn] at hget
    | some c =>
      have hc : toLowerAscii c = 0x2E := by
        simpa [hn, toLowerAscii] using hget.symm
      exact hlast (by rw [hn, toLowerAscii_eq_dot.mp hc])

end CfKernel.Fat
