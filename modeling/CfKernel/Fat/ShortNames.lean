import CfKernel.Fat.Names

/-!
# Exactly the short names

What `fat_make_short_name` accepts, and which names it takes for the same: an accepted name is a
base of one to eight characters with at most one dot and at most three characters behind it, and
two of them get the same eleven bytes when they differ in case and in a dot at the end only.
-/

namespace CfKernel.Fat

variable {x y sn name base ext : List UInt8} {inExt : Bool} {c : UInt8}

def stripDot (name : List UInt8) : List UInt8 :=
  if name.getLast? = some 0x2E then name.dropLast else name

/-- What names that stand for one entry have in common. -/
def canonicalName (name : List UInt8) : List UInt8 := stripDot (name.map toUpperAscii)

theorem getLast?_ne_dot (h : ∀ c ∈ x, c ≠ 0x2E) : x.getLast? ≠ some 0x2E := fun hlast =>
  h 0x2E (List.mem_of_getLast? hlast) rfl

theorem canonicalName_dotted (h : ShortForm base ext inExt) :
    canonicalName (dotted base ext inExt) =
      dotted (base.map toUpperAscii) (ext.map toUpperAscii) (decide (ext ≠ [])) := by
  have hbase : ∀ c ∈ base.map toUpperAscii, c ≠ 0x2E := by
    rw [List.forall_mem_map]
    exact fun c hc => (h.base_char c hc).upper.1
  have hext : ∀ c ∈ ext.map toUpperAscii, c ≠ 0x2E := by
    rw [List.forall_mem_map]
    exact fun c hc => (h.ext_char c hc).upper.1
  have hup : toUpperAscii 0x2E = 0x2E := rfl
  rw [canonicalName, stripDot]
  cases inExt with
  | false =>
    obtain rfl := h.ext_nil rfl
    exact if_neg (getLast?_ne_dot hbase)
  | true =>
    rw [dotted, if_pos rfl, List.map_append, List.map_cons, hup]
    cases ext with
    | nil => simp [dotted]
    | cons e ext =>
      rw [if_neg]
      · rfl
      · rw [List.getLast?_append_of_ne_nil _ (by simp), List.map_cons, List.getLast?_cons_cons,
          ← List.map_cons]
        exact getLast?_ne_dot hext

theorem fatNameToStr_eq_canonical (h : fatMakeShortName name = .ok sn) :
    fatNameToStr sn = canonicalName name := by
  obtain ⟨base, ext, inExt, hform, rfl, rfl⟩ := fatMakeShortName_iff.mp h
  rw [fatNameToStr_padded hform.parts, canonicalName_dotted hform, dotted]
  by_cases hext : ext = [] <;> simp [hext]

theorem fatMakeShortName_canonical (h : fatMakeShortName name = .ok sn) :
    fatMakeShortName (canonicalName name) = .ok sn := by
  obtain ⟨base, ext, inExt, hform, rfl, rfl⟩ := fatMakeShortName_iff.mp h
  refine fatMakeShortName_iff.mpr ⟨_, _, _, hform.upper, canonicalName_dotted hform, ?_⟩
  rw [map_toUpperAscii_idem, map_toUpperAscii_idem]

/-- A short name is read back as what was typed, in capitals and without a dot at the end, and that
is all two names with the same short name have in common. -/
theorem shortName_exact (name : List UInt8) :
    (∀ sn, fatMakeShortName name = .ok sn → sn.length = 11 ∧
      fatNameToStr sn = canonicalName name ∧ sn.head? ≠ some 0 ∧ sn.head? ≠ some 0xE5 ∧
      fatMakeShortName (fatNameToStr sn) = .ok sn) ∧
    (∀ name' sn sn', fatMakeShortName name = .ok sn → fatMakeShortName name' = .ok sn' →
      (sn = sn' ↔ canonicalName name = canonicalName name')) ∧
    ((∃ sn, fatMakeShortName name = .ok sn) ↔
      ∃ base ext inExt, ShortForm base ext inExt ∧ name = dotted base ext inExt) := by
  refine ⟨fun sn h => ?_, fun name' sn sn' h h' => ⟨?_, fun heq => ?_⟩, ?_, ?_⟩
  · obtain ⟨hlen, ch, hhead, hzero, hdeleted, -⟩ := fatMakeShortName_ok h
    refine ⟨hlen, fatNameToStr_eq_canonical h, ?_, ?_, ?_⟩
    · rw [hhead]
      exact fun he => hzero (Option.some.inj he)
    · rw [hhead]
      exact fun he => hdeleted (Option.some.inj he)
    · rw [fatNameToStr_eq_canonical h]
      exact fatMakeShortName_canonical h
  · rintro rfl
    rw [← fatNameToStr_eq_canonical h, fatNameToStr_eq_canonical h']
  · have hsame := fatMakeShortName_canonical h
    rw [heq, fatMakeShortName_canonical h'] at hsame
    exact (Except.ok.inj hsame).symm
  · rintro ⟨sn, h⟩
    obtain ⟨base, ext, inExt, hform, hname, -⟩ := fatMakeShortName_iff.mp h
    exact ⟨base, ext, inExt, hform, hname⟩
  · rintro ⟨base, ext, inExt, hform, hname⟩
    exact ⟨_, fatMakeShortName_iff.mpr ⟨base, ext, inExt, hform, hname, rfl⟩⟩

/-- `a.` and `A` are one entry. -/
example : fatMakeShortName [0x61, 0x2E] = fatMakeShortName [0x41] := by decide

end CfKernel.Fat
