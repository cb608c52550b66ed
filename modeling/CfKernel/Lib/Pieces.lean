import Mathlib.Data.List.DropRight
import Mathlib.Tactic

/-!
# Pieces between separators

`pieces sep l` are the nonempty stretches of `l` between separators. A loop that skips separators
and then takes a stretch meets them in order.
-/

namespace CfKernel.Lib

variable {α : Type} [DecidableEq α] {sep : α} {l c : List α}

def pieces (sep : α) (l : List α) : List (List α) := (l.splitOn sep).filter (· ≠ [])

def nextPiece (sep : α) (l : List α) : List α := (l.dropWhile (· = sep)).takeWhile (· ≠ sep)

def afterPiece (sep : α) (l : List α) : List α :=
  (l.dropWhile (· = sep)).drop (nextPiece sep l).length

theorem pieces_nil (sep : α) : pieces sep [] = [] := by
  simp [pieces]

theorem pieces_append_sep (hsep : sep ∉ c) (hc : c ≠ []) (l : List α) :
    pieces sep (c ++ sep :: l) = c :: pieces sep l := by
  rw [pieces, List.splitOn_append_cons_self_of_not_mem hsep, List.filter_cons_of_pos (by simpa)]
  rfl

theorem pieces_sep_cons (sep : α) (l : List α) : pieces sep (sep :: l) = pieces sep l := by
  have h : (sep :: l).splitOn sep = [] :: l.splitOn sep :=
    List.splitOn_append_cons_self_of_not_mem List.not_mem_nil l
  rw [pieces, h, List.filter_cons_of_neg (by simp)]
  rfl

theorem pieces_single (hsep : sep ∉ c) (hc : c ≠ []) : pieces sep c = [c] := by
  rw [pieces, List.splitOn_eq_singleton hsep]
  simp [hc]

theorem pieces_dropWhile (sep : α) (l : List α) :
    pieces sep (l.dropWhile (· = sep)) = pieces sep l := by
  induction l with
  | nil => rfl
  | cons x l ih =>
    by_cases hx : x = sep
    · subst hx
      rw [List.dropWhile_cons_of_pos (by simp), ih, pieces_sep_cons]
    · rw [List.dropWhile_cons_of_neg (by simpa using hx)]

omit [DecidableEq α] in
theorem head?_dropWhile (p : α → Bool) {x : α} (h : (l.dropWhile p).head? = some x) :
    p x = false := by
  have hnot := List.head?_dropWhile_not p l
  rwa [h] at hnot

theorem sep_not_mem_nextPiece (sep : α) (l : List α) : sep ∉ nextPiece sep l := by
  intro h
  have := List.all_takeWhile (p := (· ≠ sep)) (l := l.dropWhile (· = sep))
  simpa using List.all_eq_true.mp this sep h

theorem nextPiece_ne_nil (h : l.dropWhile (· = sep) ≠ []) : nextPiece sep l ≠ [] := by
  obtain ⟨x, rest, hd⟩ := List.exists_cons_of_ne_nil h
  have hx : decide (x = sep) = false := head?_dropWhile (l := l) _ (by rw [hd, List.head?_cons])
  rw [nextPiece, hd, List.takeWhile_cons_of_pos (by simpa using hx)]
  exact List.cons_ne_nil _ _

theorem afterPiece_eq (sep : α) (l : List α) :
    afterPiece sep l = (l.dropWhile (· = sep)).dropWhile (· ≠ sep) := by
  have h := List.takeWhile_append_dropWhile (p := (· ≠ sep)) (l := l.dropWhile (· = sep))
  calc afterPiece sep l
      = (nextPiece sep l ++ (l.dropWhile (· = sep)).dropWhile (· ≠ sep)).drop
          (nextPiece sep l).length := by rw [nextPiece, h]; rfl
    _ = _ := List.drop_left

theorem nextPiece_append (sep : α) (l : List α) :
    nextPiece sep l ++ afterPiece sep l = l.dropWhile (· = sep) := by
  rw [afterPiece_eq]
  exact List.takeWhile_append_dropWhile

theorem pieces_step (h : l.dropWhile (· = sep) ≠ []) :
    pieces sep l = nextPiece sep l :: pieces sep (afterPiece sep l) := by
  rw [← pieces_dropWhile, ← nextPiece_append sep l]
  cases hd : afterPiece sep l with
  | nil =>
    rw [List.append_nil, pieces_single (sep_not_mem_nextPiece sep l) (nextPiece_ne_nil h),
      pieces_nil]
  | cons x rest =>
    have hx : decide (x ≠ sep) = false := by
      apply head?_dropWhile (l := l.dropWhile (· = sep)) (· ≠ sep)
      rw [← afterPiece_eq, hd, List.head?_cons]
    obtain rfl : x = sep := by simpa using hx
    rw [pieces_append_sep (sep_not_mem_nextPiece x l) (nextPiece_ne_nil h), pieces_sep_cons]

theorem pieces_eq_nil (h : l.dropWhile (· = sep) = []) : pieces sep l = [] := by
  rw [← pieces_dropWhile, h, pieces_nil]

theorem length_afterPiece_lt (h : l.dropWhile (· = sep) ≠ []) :
    (afterPiece sep l).length < l.length := by
  have hne := List.length_pos_of_ne_nil (nextPiece_ne_nil h)
  have happ := congrArg List.length (nextPiece_append sep l)
  have hle := (List.dropWhile_suffix (l := l) (· = sep)).length_le
  rw [List.length_append] at happ
  omega

theorem mem_of_mem_piece {x : α} (h : x ∈ nextPiece sep l ∨ x ∈ afterPiece sep l) : x ∈ l := by
  rw [← List.mem_append, nextPiece_append] at h
  exact (List.dropWhile_suffix (l := l) (· = sep)).mem h

theorem length_nextPiece_le (sep : α) (l : List α) : (nextPiece sep l).length ≤ l.length :=
  (List.takeWhile_prefix _).length_le.trans (List.dropWhile_suffix _).length_le

theorem pieces_induction (sep : α) {P : List α → Prop}
    (hnil : ∀ l, l.dropWhile (· = sep) = [] → P l)
    (hcons : ∀ l, l.dropWhile (· = sep) ≠ [] → P (afterPiece sep l) → P l) (l : List α) : P l := by
  induction hn : l.length using Nat.strong_induction_on generalizing l with
  | _ n ih =>
    subst hn
    by_cases h : l.dropWhile (· = sep) = []
    · exact hnil l h
    · exact hcons l h (ih _ (length_afterPiece_lt h) _ rfl)

theorem mem_pieces (h : c ∈ pieces sep l) : c ≠ [] ∧ sep ∉ c ∧ ∀ x ∈ c, x ∈ l := by
  induction l using pieces_induction sep with
  | hnil l hd =>
    rw [pieces_eq_nil hd] at h
    cases h
  | hcons l hd ih =>
    rw [pieces_step hd, List.mem_cons] at h
    rcases h with rfl | h
    · exact ⟨nextPiece_ne_nil hd, sep_not_mem_nextPiece sep l, fun x hx => mem_of_mem_piece (.inl hx)⟩
    · obtain ⟨h1, h2, h3⟩ := ih h
      exact ⟨h1, h2, fun x hx => mem_of_mem_piece (.inr (h3 x hx))⟩

section Last

theorem pieces_append_cons (sep : α) (l m : List α) :
    pieces sep (l ++ sep :: m) = pieces sep l ++ pieces sep m := by
  rw [pieces, List.splitOn_append_cons_self, List.filter_append]
  rfl

theorem pieces_eq_nil_iff : pieces sep l = [] ↔ ∀ x ∈ l, x = sep := by
  constructor
  · intro h
    by_cases hd : l.dropWhile (· = sep) = []
    · simpa using hd
    · rw [pieces_step hd] at h
      cases h
  · intro h
    apply pieces_eq_nil
    simpa using h

theorem pieces_append_of_all_sep (l : List α) {m : List α} (h : ∀ x ∈ m, x = sep) :
    pieces sep (l ++ m) = pieces sep l := by
  cases m with
  | nil => rw [List.append_nil]
  | cons x m =>
    obtain rfl := h x List.mem_cons_self
    rw [pieces_append_cons, pieces_eq_nil_iff.mpr fun y hy => h y (List.mem_cons_of_mem x hy),
      List.append_nil]

theorem pieces_rdropWhile (sep : α) (l : List α) :
    pieces sep (l.rdropWhile (· = sep)) = pieces sep l := by
  have hall : ∀ x ∈ l.rtakeWhile (· = sep), x = sep := fun x hx => by
    simpa using List.mem_rtakeWhile_imp hx
  rw [← pieces_append_of_all_sep (l.rdropWhile (· = sep)) hall, List.rdropWhile_append_rtakeWhile]

/-- The last stretch, with the separators behind it taken off. -/
def lastPiece (sep : α) (l : List α) : List α :=
  (l.rdropWhile (· = sep)).rtakeWhile (· ≠ sep)

/-- The list without its last stretch and the separators on both sides of it. -/
def beforeLast (sep : α) (l : List α) : List α :=
  ((l.rdropWhile (· = sep)).rdropWhile (· ≠ sep)).rdropWhile (· = sep)

theorem getLast_rdropWhile_ne (hne : l.rdropWhile (· = sep) ≠ []) :
    (l.rdropWhile (· = sep)).getLast hne ≠ sep := by
  simpa using List.rdropWhile_last_not (· = sep) l hne

theorem pieces_eq_append_rtakeWhile (h : l.rtakeWhile (· ≠ sep) ≠ []) :
    pieces sep l = pieces sep (l.rdropWhile (· ≠ sep)) ++ [l.rtakeWhile (· ≠ sep)] := by
  have hsep : sep ∉ l.rtakeWhile (· ≠ sep) := fun hmem => by
    simpa using List.mem_rtakeWhile_imp hmem
  have hsplit : l.rdropWhile (· ≠ sep) ++ l.rtakeWhile (· ≠ sep) = l :=
    List.rdropWhile_append_rtakeWhile
  have hend : ∀ hne, (l.rdropWhile (· ≠ sep)).getLast hne = sep := fun hne => by
    simpa using List.rdropWhile_last_not (· ≠ sep) l hne
  generalize l.rtakeWhile (· ≠ sep) = last at h hsep hsplit ⊢
  generalize l.rdropWhile (· ≠ sep) = front at hend hsplit ⊢
  subst hsplit
  by_cases hnil : front = []
  · rw [hnil, List.nil_append, pieces_single hsep h, pieces_nil, List.nil_append]
  · rw [← List.dropLast_append_getLast hnil, hend hnil, List.append_assoc, List.singleton_append,
      pieces_append_cons, pieces_append_cons, pieces_nil, List.append_nil, pieces_single hsep h]

theorem pieces_eq_append_lastPiece (h : pieces sep l ≠ []) :
    pieces sep l = pieces sep (beforeLast sep l) ++ [lastPiece sep l] := by
  have hne : l.rdropWhile (· = sep) ≠ [] := by
    rw [← pieces_rdropWhile] at h
    rintro hnil
    rw [hnil, pieces_nil] at h
    exact h rfl
  have hlast : lastPiece sep l ≠ [] := by
    rw [lastPiece, Ne, List.rtakeWhile_eq_nil_iff]
    exact fun hall => hall hne (by simpa using getLast_rdropWhile_ne hne)
  rw [beforeLast, pieces_rdropWhile, ← pieces_rdropWhile sep l]
  exact pieces_eq_append_rtakeWhile hlast

theorem getLast?_pieces (h : pieces sep l ≠ []) :
    (pieces sep l).getLast? = some (lastPiece sep l) := by
  rw [pieces_eq_append_lastPiece h, List.getLast?_concat]

theorem lastPiece_eq_nil (h : pieces sep l = []) : lastPiece sep l = [] := by
  have hall : l.rdropWhile (· = sep) = [] := by
    rw [List.rdropWhile_eq_nil_iff]
    simpa using pieces_eq_nil_iff.mp h
  rw [lastPiece, hall, List.rtakeWhile_nil]

theorem lastPiece_eq_of_pieces {m : List α} (front : List (List α)) (hm : pieces sep m ≠ [])
    (h : pieces sep l = front ++ pieces sep m) : lastPiece sep l = lastPiece sep m := by
  have hl : pieces sep l ≠ [] := by
    rw [h]
    exact List.append_ne_nil_of_right_ne_nil _ hm
  have hlast := getLast?_pieces hl
  rw [h, List.getLast?_append_of_ne_nil _ hm, getLast?_pieces hm] at hlast
  exact (Option.some.inj hlast).symm

/-- With a piece before the last one, what is left does not end in a separator; without, nothing
is left. -/
theorem beforeLast_eq_nil_iff : beforeLast sep l = [] ↔ pieces sep (beforeLast sep l) = [] := by
  refine ⟨fun h => by rw [h, pieces_nil], fun h => ?_⟩
  by_contra hne
  exact getLast_rdropWhile_ne hne (pieces_eq_nil_iff.mp h _ (List.getLast_mem hne))

theorem getLast?_beforeLast_ne (sep : α) (l : List α) : (beforeLast sep l).getLast? ≠ some sep := by
  intro h
  have hne : beforeLast sep l ≠ [] := by
    rintro hnil
    rw [hnil] at h
    cases h
  rw [List.getLast?_eq_some_getLast hne] at h
  exact getLast_rdropWhile_ne hne (Option.some.inj h)

theorem beforeLast_isPrefix (sep : α) (l : List α) : beforeLast sep l <+: l :=
  (List.rdropWhile_prefix _ _).trans
    ((List.rdropWhile_prefix _ _).trans (List.rdropWhile_prefix _ _))

end Last

end CfKernel.Lib
