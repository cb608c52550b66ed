import Mathlib.Tactic

/-!
# Singly linked chains

`Path next c l e`: following `next` from `c` visits exactly the nodes of `l`, in that order, and
arrives at `e`. When `next` is functional and nothing follows `e`, the list is determined by its
start, no node occurs twice, and an update of `next` away from the list leaves the path alone.
-/

namespace CfKernel.Lib

variable {α : Type} {next next' : α → α → Prop} {c e x : α} {l m : List α}

def Path (next : α → α → Prop) : α → List α → α → Prop
  | c, [], e => c = e
  | c, x :: l, e => c = x ∧ ∃ n, next x n ∧ Path next n l e

@[simp] theorem path_nil : Path next c [] e ↔ c = e := Iff.rfl

theorem path_cons : Path next c (x :: l) e ↔ c = x ∧ ∃ n, next x n ∧ Path next n l e := Iff.rfl

theorem path_append : Path next c (l ++ m) e ↔ ∃ x, Path next c l x ∧ Path next x m e := by
  induction l generalizing c with
  | nil => simp
  | cons y l ih =>
    simp only [List.cons_append, path_cons, ih]
    constructor
    · rintro ⟨rfl, n, hn, x, hx, hm⟩
      exact ⟨x, ⟨rfl, n, hn, hx⟩, hm⟩
    · rintro ⟨x, ⟨rfl, n, hn, hx⟩, hm⟩
      exact ⟨rfl, n, hn, x, hx, hm⟩

theorem Path.congr (h : Path next c l e) (hn : ∀ x ∈ l, ∀ n, next x n → next' x n) :
    Path next' c l e := by
  induction l generalizing c with
  | nil => exact h
  | cons x l ih =>
    obtain ⟨rfl, n, hxn, hl⟩ := h
    exact ⟨rfl, n, hn c (by simp) n hxn, ih hl fun y hy => hn y (by simp [hy])⟩

theorem Path.exists_next (h : Path next c l e) (hx : x ∈ l) : ∃ n, next x n := by
  induction l generalizing c with
  | nil => cases hx
  | cons y l ih =>
    obtain ⟨rfl, n, hyn, hl⟩ := h
    rcases List.mem_cons.mp hx with rfl | hx
    · exact ⟨n, hyn⟩
    · exact ih hl hx

theorem Path.head_eq (h : Path next c (x :: l) e) : c = x := h.1

theorem Path.unlink {b y : α} (h : Path next c (l ++ b :: x :: m) e)
    (hx : ∀ z, next x z → z = y) (hb : next' b y)
    (hl : ∀ z ∈ l, ∀ n, next z n → next' z n) (hm : ∀ z ∈ m, ∀ n, next z n → next' z n) :
    Path next' c (l ++ b :: m) e := by
  obtain ⟨a, ha, rfl, n, -, rfl, z, hz, hrest⟩ := path_append.mp h
  rw [hx z hz] at hrest
  exact path_append.mpr ⟨a, ha.congr hl, rfl, y, hb, hrest.congr hm⟩

section Functional

variable (hf : ∀ a b b', next a b → next a b' → b = b') (he : ∀ b, ¬ next e b)

include hf he

theorem Path.unique (h : Path next c l e) (h' : Path next c m e) : l = m := by
  induction l generalizing c m with
  | nil =>
    cases m with
    | nil => rfl
    | cons y m =>
      obtain ⟨rfl, n, hyn, -⟩ := h'
      rw [path_nil.mp h] at hyn
      exact absurd hyn (he n)
  | cons x l ih =>
    obtain ⟨rfl, n, hxn, hl⟩ := h
    cases m with
    | nil =>
      rw [path_nil.mp h'] at hxn
      exact absurd hxn (he n)
    | cons y m =>
      obtain ⟨rfl, n', hyn, hm⟩ := h'
      cases hf _ _ _ hxn hyn
      rw [ih hl hm]

theorem Path.nodup (h : Path next c l e) : l.Nodup := by
  induction l generalizing c with
  | nil => exact List.nodup_nil
  | cons x l ih =>
    have hx : x ∉ l := by
      intro hmem
      obtain ⟨s, t, rfl⟩ := List.append_of_mem hmem
      have hwhole := h
      obtain ⟨rfl, n, -, hl⟩ := h
      obtain ⟨y, -, hy⟩ := path_append.mp hl
      cases hy.head_eq
      have heq := congrArg List.length (Path.unique hf he hwhole hy)
      simp only [List.length_cons, List.length_append] at heq
      omega
    obtain ⟨rfl, n, -, hl⟩ := h
    exact List.nodup_cons.mpr ⟨hx, ih hl⟩

end Functional

end CfKernel.Lib
