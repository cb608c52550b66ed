import CfKernel.Lib.Effect
import CfKernel.Lib.Bytes
import CfKernel.Lib.Pieces

/-!
# Path normalisation in place

The loop that `syscall_resolve_path` and the copy command's `normalize_path` share: it keeps a
canonical path in a buffer and edits it component by component. The two differ in their test for a
component that does not fit, which is a parameter here.
-/

namespace CfKernel.Syscall

open Lib Lib.Eff Function

/-- The bytes of a C string; past its end it reads as zero. -/
def stringBytes (s : List UInt8) : Bytes := fun i => s.getD i 0

/-- `while (length > 1 && resolved[length - 1] != '/') length--`. -/
def scanBack (b : Bytes) : Nat → Nat
  | 0 => 0
  | 1 => 1
  | n + 2 => if b (n + 1) = 0x2F then n + 2 else scanBack b (n + 1)

section Code

variable {ε : Type}

def popComponent (length : Nat) : Eff ε Bytes Nat :=
  if 1 < length then do
    let b ← Eff.read fun b => .ok b
    let length := scanBack b length
    let length := if 1 < length then length - 1 else length
    Eff.modify fun b => update b length 0
    pure length
  else pure length

def separator (length : Nat) : Nat := if 1 < length then 1 else 0

def pushComponent (length : Nat) (component : List UInt8) : Eff ε Bytes Nat := do
  (if separator length ≠ 0 then Eff.modify fun b => update b length 0x2F else pure ())
  let length := length + separator length
  Eff.modify fun b => splice b length component.length (stringBytes component)
  let length := length + component.length
  Eff.modify fun b => update b length 0
  pure length

def normalizeTurn (tooLong : Nat → Nat → Bool) (e : ε) (length : Nat) (component : List UInt8) :
    Eff ε Bytes Nat :=
  if component = [0x2E] then pure length
  else if component = [0x2E, 0x2E] then popComponent length
  else if tooLong length component.length then Eff.fail e
  else pushComponent length component

/-- Each turn that goes on takes at least one byte of the path. -/
def normalizeLoop (tooLong : Nat → Nat → Bool) (e : ε) : Nat → List UInt8 → Nat → Eff ε Bytes Nat
  | 0, _, length => pure length
  | n + 1, cursor, length =>
    if cursor.dropWhile (· = 0x2F) = [] then pure length
    else do
      let length ← normalizeTurn tooLong e length (nextPiece 0x2F cursor)
      normalizeLoop tooLong e n (afterPiece 0x2F cursor) length

end Code

/-- A component that stays: not empty, not `.` or `..`, and without slash or zero. -/
def PlainName (c : List UInt8) : Prop :=
  c ≠ [] ∧ c ≠ [0x2E] ∧ c ≠ [0x2E, 0x2E] ∧ 0x2F ∉ c ∧ 0 ∉ c

/-- What a component does to the components before it. -/
def normalStep (stack : List (List UInt8)) (c : List UInt8) : List (List UInt8) :=
  if c = [] ∨ c = [0x2E] then stack
  else if c = [0x2E, 0x2E] then stack.dropLast
  else stack ++ [c]

def normalForm (cs : List (List UInt8)) : List (List UInt8) := cs.foldl normalStep []

def canonicalText (stack : List (List UInt8)) : List UInt8 :=
  if stack = [] then [0x2F] else stack.flatMap fun c => 0x2F :: c

/-- `/`, or `/c₁/…/cₙ` with components that stay. -/
def Canonical (path : List UInt8) : Prop :=
  ∃ stack, (∀ c ∈ stack, PlainName c) ∧ path = canonicalText stack

/-- The buffer holds the string, with its zero. -/
def Holds (b : Bytes) (s : List UInt8) : Prop :=
  ∀ i ≤ s.length, b i = stringBytes s i

variable {b : Bytes} {s c : List UInt8} {stack : List (List UInt8)} {i : Nat}

theorem canonicalText_snoc (stack : List (List UInt8)) (c : List UInt8) :
    canonicalText (stack ++ [c]) =
      (if stack = [] then [0x2F] else canonicalText stack ++ [0x2F]) ++ c := by
  by_cases h : stack = []
  · subst h
    simp [canonicalText]
  · simp [canonicalText, h]

theorem canonicalText_pos (stack : List (List UInt8)) : 0 < (canonicalText stack).length := by
  cases stack with
  | nil => simp [canonicalText]
  | cons c stack => simp [canonicalText]

theorem one_lt_canonicalText (h : stack ≠ []) (hplain : ∀ c ∈ stack, PlainName c) :
    1 < (canonicalText stack).length := by
  obtain ⟨c, rest, rfl⟩ := List.exists_cons_of_ne_nil h
  have hc := List.length_pos_of_ne_nil (hplain c (by simp)).1
  simp only [canonicalText, List.flatMap_cons, reduceCtorEq, if_false, List.length_append,
    List.length_cons]
  omega

theorem separator_canonicalText (hplain : ∀ c ∈ stack, PlainName c) :
    separator (canonicalText stack).length = if stack = [] then 0 else 1 := by
  by_cases h : stack = []
  · subst h
    rfl
  · rw [separator, if_pos (one_lt_canonicalText h hplain), if_neg h]

theorem scanBack_eq {p n : Nat} (hp : 0 < p) (hslash : p = 1 ∨ b (p - 1) = 0x2F)
    (hname : ∀ i, p ≤ i → i < p + n → b i ≠ 0x2F) : scanBack b (p + n) = p := by
  induction n with
  | zero =>
    obtain ⟨q, rfl⟩ := Nat.exists_eq_add_of_lt hp
    cases q with
    | zero => rfl
    | succ q =>
      have hb : b (q + 1) = 0x2F := by simpa using hslash.resolve_left (by omega)
      rw [show 0 + (q + 1) + 1 + 0 = q + 2 by omega, scanBack, if_pos hb]
  | succ n ih =>
    obtain ⟨q, hq⟩ : ∃ q, p + (n + 1) = q + 2 := ⟨p + n - 1, by omega⟩
    rw [hq, scanBack, if_neg (hname (q + 1) (by omega) (by omega)), show q + 1 = p + n by omega]
    exact ih fun i hi hlt => hname i hi (by omega)

theorem stringBytes_append_left {x y : List UInt8} (h : i < x.length) :
    stringBytes (x ++ y) i = stringBytes x i := by
  simp only [stringBytes, List.getD_eq_getElem?_getD, List.getElem?_append_left h]

theorem stringBytes_append_right {x y : List UInt8} (h : x.length ≤ i) :
    stringBytes (x ++ y) i = stringBytes y (i - x.length) := by
  simp only [stringBytes, List.getD_eq_getElem?_getD, List.getElem?_append_right h]

theorem stringBytes_length (s : List UInt8) : stringBytes s s.length = 0 := by
  simp [stringBytes]

theorem stringBytes_mem (h : i < s.length) : stringBytes s i ∈ s := by
  simp only [stringBytes, List.getD_eq_getElem?_getD, List.getElem?_eq_getElem h, Option.getD_some]
  exact List.getElem_mem h

theorem Holds.cut {x y : List UInt8} (h : Holds b (x ++ y)) : Holds (update b x.length 0) x := by
  intro i hi
  by_cases hlast : i = x.length
  · rw [hlast, update_self, stringBytes_length]
  · have hlt : i < x.length := by omega
    rw [update_of_ne hlast, h i (by rw [List.length_append]; omega), stringBytes_append_left hlt]

theorem Holds.extend (h : ∀ i < s.length, b i = stringBytes s i) :
    Holds (update (splice b s.length c.length (stringBytes c)) (s.length + c.length) 0)
      (s ++ c) := by
  intro i hi
  rw [List.length_append] at hi
  by_cases hlast : i = s.length + c.length
  · rw [hlast, update_self, ← List.length_append, stringBytes_length]
  rw [update_of_ne hlast]
  by_cases hlt : i < s.length
  · rw [splice_outside (.inl hlt), h i hlt, stringBytes_append_left hlt]
  · rw [splice_inside (by omega) (by omega), stringBytes_append_right (by omega)]

section Turn

variable {ε : Type} {e : ε} {tooLong : Nat → Nat → Bool} {capacity bound : Nat}

/-- The buffer holds the canonical text of the stack, inside its capacity. -/
structure AtStack (capacity : Nat) (stack : List (List UInt8)) (b : Bytes) : Prop where
  plain : ∀ c ∈ stack, PlainName c
  fits : (canonicalText stack).length < capacity
  holds : Holds b (canonicalText stack)

/-- The text of a longer stack starts with that of the shorter one; what lies before the last
component ends in a slash. -/
theorem canonicalText_last (init : List (List UInt8)) (c : List UInt8) :
    ∃ pre suf, canonicalText (init ++ [c]) = pre ++ c ∧ 0 < pre.length ∧
      (pre.length = 1 ∨ stringBytes pre (pre.length - 1) = 0x2F) ∧
      (if 1 < pre.length then pre.length - 1 else pre.length) = (canonicalText init).length ∧
      canonicalText (init ++ [c]) = canonicalText init ++ suf := by
  rw [canonicalText_snoc]
  by_cases hnil : init = []
  · subst hnil
    exact ⟨[0x2F], c, by simp, by simp, .inl rfl, rfl, by simp [canonicalText]⟩
  · have hpos := canonicalText_pos init
    refine ⟨canonicalText init ++ [0x2F], [0x2F] ++ c, by rw [if_neg hnil], by simp, .inr ?_, ?_,
      by rw [if_neg hnil, List.append_assoc]⟩
    · rw [List.length_append, List.length_singleton, Nat.add_sub_cancel,
        stringBytes_append_right le_rfl, Nat.sub_self]
      rfl
    · rw [List.length_append, List.length_singleton, if_pos (by omega), Nat.add_sub_cancel]

theorem popComponent_spec (h : AtStack capacity stack b) :
    ∃ b', (popComponent (canonicalText stack).length : Eff ε Bytes Nat) b =
        (.ok (canonicalText stack.dropLast).length, b') ∧
      AtStack capacity stack.dropLast b' ∧ ∀ i, capacity ≤ i → b' i = b i := by
  rcases List.eq_nil_or_concat' stack with rfl | ⟨init, c, rfl⟩
  · exact ⟨b, rfl, h, fun _ _ => rfl⟩
  rw [List.dropLast_concat]
  obtain ⟨hplain, hfits, hholds⟩ := h
  have hlong := one_lt_canonicalText (by simp) hplain
  obtain ⟨pre, suf, hpre, hpos, hslash, hcut, hsuf⟩ := canonicalText_last init c
  have hscan : scanBack b (canonicalText (init ++ [c])).length = pre.length := by
    rw [hpre] at hholds
    rw [hpre, List.length_append]
    apply scanBack_eq hpos
    · refine hslash.imp_right fun hs => ?_
      rw [hholds _ (by rw [List.length_append]; omega), stringBytes_append_left (by omega), hs]
    · intro i hi hlt heq
      rw [hholds _ (by rw [List.length_append]; omega), stringBytes_append_right hi] at heq
      have hmem := stringBytes_mem (s := c) (i := i - pre.length) (by omega)
      rw [heq] at hmem
      exact (hplain c (by simp)).2.2.2.1 hmem
  have hle : (canonicalText init).length < capacity := by
    have := congrArg List.length hsuf
    rw [List.length_append] at this
    omega
  refine ⟨update b (canonicalText init).length 0, ?_, ⟨?_, hle, ?_⟩, fun i hi => ?_⟩
  · rw [← hcut, ← hscan, popComponent, if_pos hlong]
    rfl
  · exact fun x hx => hplain x (List.mem_append_left _ hx)
  · rw [hsuf] at hholds
    exact hholds.cut
  · exact update_of_ne (by omega) _ _

/-- The buffer with the slash that a component needs before it. -/
def slashed (b : Bytes) (length : Nat) : Bytes :=
  if separator length ≠ 0 then update b length 0x2F else b

theorem pushComponent_run (length : Nat) (c : List UInt8) :
    (pushComponent length c : Eff ε Bytes Nat) b =
      (.ok (length + separator length + c.length),
        update (splice (slashed b length) (length + separator length) c.length
          (stringBytes c)) (length + separator length + c.length) 0) := by
  unfold pushComponent slashed
  by_cases h : separator length ≠ 0
  · simp only [if_pos h]
    rfl
  · simp only [if_neg h]
    rfl

theorem slashed_spec (h : AtStack capacity stack b) :
    ∃ s, (∀ c, canonicalText (stack ++ [c]) = s ++ c) ∧
      s.length = (canonicalText stack).length + separator (canonicalText stack).length ∧
      ∀ i < s.length, slashed b (canonicalText stack).length i = stringBytes s i := by
  have hsep := separator_canonicalText h.plain
  by_cases hnil : stack = []
  · subst hnil
    refine ⟨[0x2F], fun c => by rw [canonicalText_snoc, if_pos rfl], rfl, fun i hi => ?_⟩
    exact h.holds i hi.le
  · rw [if_neg hnil] at hsep
    refine ⟨canonicalText stack ++ [0x2F], fun c => by rw [canonicalText_snoc, if_neg hnil],
      by rw [hsep, List.length_append, List.length_singleton], fun i hi => ?_⟩
    rw [slashed, hsep, if_pos one_ne_zero]
    rw [List.length_append, List.length_singleton] at hi
    by_cases hlast : i = (canonicalText stack).length
    · rw [hlast, update_self, stringBytes_append_right le_rfl, Nat.sub_self]
      rfl
    · rw [update_of_ne hlast, stringBytes_append_left (by omega), h.holds i (by omega)]

theorem length_canonicalText_snoc (hplain : ∀ c ∈ stack, PlainName c) :
    (canonicalText (stack ++ [c])).length =
      (canonicalText stack).length + separator (canonicalText stack).length + c.length := by
  rw [canonicalText_snoc, separator_canonicalText hplain]
  by_cases hnil : stack = []
  · subst hnil
    exact List.length_append
  · simp only [if_neg hnil, List.length_append, List.length_singleton]

theorem pushComponent_spec (h : AtStack capacity stack b) (hc : PlainName c)
    (hfits : (canonicalText (stack ++ [c])).length < capacity) :
    ∃ b', (pushComponent (canonicalText stack).length c : Eff ε Bytes Nat) b =
        (.ok (canonicalText (stack ++ [c])).length, b') ∧
      AtStack capacity (stack ++ [c]) b' ∧ ∀ i, capacity ≤ i → b' i = b i := by
  have hlen := length_canonicalText_snoc (c := c) h.plain
  obtain ⟨s, htext, hs, hb⟩ := slashed_spec h
  refine ⟨_, by rw [pushComponent_run, hlen], ⟨?_, hfits, ?_⟩, fun i hi => ?_⟩
  · intro x hx
    rcases List.mem_append.mp hx with hx | hx
    · exact h.plain x hx
    · rwa [List.mem_singleton.mp hx]
  · rw [htext, ← hs]
    exact Holds.extend hb
  · have hfit := h.fits
    rw [update_of_ne (by omega), splice_outside (by omega), slashed]
    split
    · exact update_of_ne (by omega) _ _
    · rfl

/-- What the test for a component that does not fit has to say about a buffer of `capacity`. -/
def FitTest (capacity bound : Nat) (tooLong : Nat → Nat → Bool) : Prop :=
  ∀ length n, length < capacity → n ≤ bound →
    (tooLong length n = false ↔ length + separator length + n < capacity)

theorem normalizeTurn_spec {bound : Nat} {tooLong : Nat → Nat → Bool} {e : ε}
    (h : AtStack capacity stack b) (hfit : FitTest capacity bound tooLong) (hc : c ≠ [])
    (hslash : 0x2F ∉ c) (hzero : 0 ∉ c) (hbound : c.length ≤ bound) :
    if (canonicalText (normalStep stack c)).length < capacity then
      ∃ b', normalizeTurn tooLong e (canonicalText stack).length c b =
          (.ok (canonicalText (normalStep stack c)).length, b') ∧
        AtStack capacity (normalStep stack c) b' ∧ ∀ i, capacity ≤ i → b' i = b i
    else normalizeTurn tooLong e (canonicalText stack).length c b = (.error e, b) := by
  by_cases hdot : c = [0x2E]
  · rw [show normalStep stack c = stack from if_pos (.inr hdot), if_pos h.fits, normalizeTurn,
      if_pos hdot]
    exact ⟨b, rfl, h, fun _ _ => rfl⟩
  have hstep : normalStep stack c = if c = [0x2E, 0x2E] then stack.dropLast else stack ++ [c] :=
    if_neg (not_or.mpr ⟨hc, hdot⟩)
  by_cases hup : c = [0x2E, 0x2E]
  · obtain ⟨b', hrun, hat', hrest⟩ := popComponent_spec (ε := ε) h
    rw [hstep, if_pos hup, if_pos hat'.fits, normalizeTurn, if_neg hdot, if_pos hup]
    exact ⟨b', hrun, hat', hrest⟩
  · have htest := hfit _ c.length h.fits hbound
    rw [← length_canonicalText_snoc h.plain] at htest
    rw [hstep, if_neg hup, normalizeTurn, if_neg hdot, if_neg hup]
    by_cases hlt : (canonicalText (stack ++ [c])).length < capacity
    · rw [if_pos hlt, if_neg (by simp [htest.mpr hlt])]
      exact pushComponent_spec h ⟨hc, hdot, hup, hslash, hzero⟩ hlt
    · rw [if_neg hlt, if_pos (by simpa using mt htest.mp hlt)]
      rfl

/-- The text fits in the buffer after each of the components. -/
def AllFit (capacity : Nat) (stack cs : List (List UInt8)) : Prop :=
  ∀ done, done <+: cs → (canonicalText (done.foldl normalStep stack)).length < capacity

theorem allFit_nil : AllFit capacity stack [] ↔ (canonicalText stack).length < capacity := by
  constructor
  · exact fun hall => hall [] List.nil_prefix
  · intro hfits done hdone
    rwa [List.prefix_nil.mp hdone]

theorem AllFit.start {cs : List (List UInt8)} (h : AllFit capacity stack cs) :
    (canonicalText stack).length < capacity :=
  h [] List.nil_prefix

theorem allFit_cons {cs : List (List UInt8)} :
    AllFit capacity stack (c :: cs) ↔
      (canonicalText stack).length < capacity ∧ AllFit capacity (normalStep stack c) cs := by
  constructor
  · intro hall
    refine ⟨hall.start, fun done hdone => ?_⟩
    exact hall (c :: done) (List.cons_prefix_cons.mpr ⟨rfl, hdone⟩)
  · rintro ⟨hfits, hall⟩ done hdone
    cases done with
    | nil => exact hfits
    | cons d done =>
      obtain ⟨rfl, hrest⟩ := List.cons_prefix_cons.mp hdone
      exact hall done hrest

theorem normalizeLoop_spec {bound : Nat} {tooLong : Nat → Nat → Bool} {e : ε}
    (hfit : FitTest capacity bound tooLong) {fuel : Nat} {cursor : List UInt8}
    (h : AtStack capacity stack b) (hfuel : cursor.length < fuel) (hzero : 0 ∉ cursor)
    (hbound : cursor.length ≤ bound) :
    (AllFit capacity stack (pieces 0x2F cursor) →
      ∃ b', normalizeLoop tooLong e fuel cursor (canonicalText stack).length b =
          (.ok (canonicalText ((pieces 0x2F cursor).foldl normalStep stack)).length, b') ∧
        AtStack capacity ((pieces 0x2F cursor).foldl normalStep stack) b' ∧
        ∀ i, capacity ≤ i → b' i = b i) ∧
    (¬ AllFit capacity stack (pieces 0x2F cursor) →
      (normalizeLoop tooLong e fuel cursor (canonicalText stack).length b).1 = .error e) := by
  induction fuel generalizing cursor stack b with
  | zero => omega
  | succ fuel ih =>
    by_cases hd : cursor.dropWhile (· = 0x2F) = []
    · rw [pieces_eq_nil hd, normalizeLoop, if_pos hd]
      exact ⟨fun _ => ⟨b, rfl, h, fun _ _ => rfl⟩, fun hnot => absurd (allFit_nil.mpr h.fits) hnot⟩
    have hturn := normalizeTurn_spec (e := e) h hfit (nextPiece_ne_nil hd)
      (sep_not_mem_nextPiece _ _) (fun h0 => hzero (mem_of_mem_piece (.inl h0)))
      ((length_nextPiece_le _ _).trans hbound)
    have hlt := length_afterPiece_lt hd
    rw [pieces_step hd, allFit_cons, normalizeLoop, if_neg hd, List.foldl_cons]
    split_ifs at hturn with hnext
    · obtain ⟨b₁, hrun, hat₁, hrest₁⟩ := hturn
      obtain ⟨hok, herr⟩ := @ih _ _ (afterPiece 0x2F cursor) hat₁ (by omega)
        (fun h0 => hzero (mem_of_mem_piece (.inr h0))) (by omega)
      rw [bind_ok hrun]
      refine ⟨fun hall => ?_, fun hnot => herr fun hall => hnot ⟨h.fits, hall⟩⟩
      obtain ⟨b', hrun', hat', hrest'⟩ := hok hall.2
      exact ⟨b', hrun', hat', fun i hi => (hrest' i hi).trans (hrest₁ i hi)⟩
    · rw [bind_error hturn]
      exact ⟨fun hall => absurd hall.2.start hnext, fun _ => rfl⟩

end Turn

section Components

variable {capacity : Nat} {cs ds : List (List UInt8)}

theorem normalStep_plain (hc : PlainName c) : normalStep stack c = stack ++ [c] := by
  obtain ⟨hne, hdot, hup, _⟩ := hc
  rw [normalStep, if_neg (not_or.mpr ⟨hne, hdot⟩), if_neg hup]

theorem foldl_normalStep_plain (hplain : ∀ c ∈ cs, PlainName c) (stack : List (List UInt8)) :
    cs.foldl normalStep stack = stack ++ cs := by
  induction cs generalizing stack with
  | nil => simp
  | cons c cs ih =>
    rw [List.foldl_cons, normalStep_plain (hplain c (by simp)),
      ih (fun x hx => hplain x (List.mem_cons_of_mem _ hx)), List.append_assoc]
    rfl

theorem allFit_append :
    AllFit capacity stack (cs ++ ds) ↔
      AllFit capacity stack cs ∧ AllFit capacity (cs.foldl normalStep stack) ds := by
  induction cs generalizing stack with
  | nil => exact ⟨fun h => ⟨allFit_nil.mpr h.start, h⟩, fun h => h.2⟩
  | cons c cs ih => rw [List.cons_append, allFit_cons, allFit_cons, ih, List.foldl_cons, and_assoc]

theorem allFit_filter : AllFit capacity stack (cs.filter (· ≠ [])) ↔ AllFit capacity stack cs := by
  induction cs generalizing stack with
  | nil => rfl
  | cons c cs ih =>
    by_cases hc : c = []
    · subst hc
      rw [List.filter_cons_of_neg (by simp), ih, allFit_cons]
      exact ⟨fun h => ⟨h.start, h⟩, fun h => h.2⟩
    · rw [List.filter_cons_of_pos (by simpa using hc), allFit_cons, allFit_cons, ih]

theorem foldl_normalStep_filter (stack : List (List UInt8)) :
    (cs.filter (· ≠ [])).foldl normalStep stack = cs.foldl normalStep stack := by
  induction cs generalizing stack with
  | nil => rfl
  | cons c cs ih =>
    by_cases hc : c = []
    · subst hc
      rw [List.filter_cons_of_neg (by simp), ih]
      rfl
    · rw [List.filter_cons_of_pos (by simpa using hc), List.foldl_cons, List.foldl_cons, ih]

theorem length_canonicalText_le (stack : List (List UInt8)) (cs : List (List UInt8)) :
    (canonicalText stack).length ≤ (canonicalText (stack ++ cs)).length := by
  induction cs generalizing stack with
  | nil => rw [List.append_nil]
  | cons c cs ih =>
    obtain ⟨_, suf, _, _, _, _, hsuf⟩ := canonicalText_last stack c
    have h := ih (stack ++ [c])
    rw [hsuf, List.length_append, List.append_assoc] at h
    exact (Nat.le_add_right _ _).trans h

theorem allFit_plain (hplain : ∀ c ∈ cs, PlainName c) :
    AllFit capacity stack cs ↔ (canonicalText (stack ++ cs)).length < capacity := by
  constructor
  · intro h
    have := h cs (List.prefix_refl cs)
    rwa [foldl_normalStep_plain hplain] at this
  · intro hlt done hdone
    obtain ⟨rest, rfl⟩ := hdone
    rw [foldl_normalStep_plain fun c hc => hplain c (List.mem_append_left _ hc)]
    rw [← List.append_assoc] at hlt
    exact (length_canonicalText_le _ _).trans_lt hlt

end Components

end CfKernel.Syscall
