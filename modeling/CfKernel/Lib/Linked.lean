import Mathlib.Tactic

/-!
# Doubly linked segments

The nodes of a doubly linked list lie in some store; `node c p n` says that the store holds node
`c` with back link `p` and forward link `n`. `Seg` threads a list of nodes between a link into it
and a link out of it, and splits where the list does. `Laid` says that the nodes, each an interval
of addresses, lie one behind the other between two bounds, with gaps allowed.
-/

namespace CfKernel.Lib

section

variable {α : Type} (addr : α → Nat)

/-- The address of the first node, or the link behind an empty segment. -/
def headOr (next : Nat) : List α → Nat
  | [] => next
  | c :: _ => addr c

/-- The address of the last node, or the link before an empty segment. -/
def lastOr (prev : Nat) : List α → Nat
  | [] => prev
  | c :: l => lastOr (addr c) l

def Seg (node : α → Nat → Nat → Prop) : Nat → List α → Nat → Prop
  | _, [], _ => True
  | prev, c :: l, next => node c prev (headOr addr next l) ∧ Seg node (addr c) l next

end

variable {α : Type} {addr : α → Nat} {node node' : α → Nat → Nat → Prop}
  {p n : Nat} {c : α} {l l₁ l₂ : List α}

theorem headOr_append : headOr addr n (l₁ ++ l₂) = headOr addr (headOr addr n l₂) l₁ := by
  cases l₁ <;> rfl

theorem lastOr_append : lastOr addr p (l₁ ++ l₂) = lastOr addr (lastOr addr p l₁) l₂ := by
  induction l₁ generalizing p with
  | nil => rfl
  | cons c l₁ ih => exact ih

@[simp] theorem lastOr_concat : lastOr addr p (l ++ [c]) = addr c := by
  rw [lastOr_append]
  rfl

theorem seg_append :
    Seg addr node p (l₁ ++ l₂) n ↔
      Seg addr node p l₁ (headOr addr n l₂) ∧ Seg addr node (lastOr addr p l₁) l₂ n := by
  induction l₁ generalizing p with
  | nil => simp [Seg, lastOr]
  | cons c l₁ ih =>
    rw [List.cons_append, Seg, Seg, ih, headOr_append, lastOr, and_assoc]

theorem seg_split :
    Seg addr node p (l₁ ++ c :: l₂) n ↔
      Seg addr node p l₁ (addr c) ∧ node c (lastOr addr p l₁) (headOr addr n l₂) ∧
        Seg addr node (addr c) l₂ n :=
  seg_append

theorem Seg.imp (h : ∀ c ∈ l, ∀ p n, node c p n → node' c p n) (hseg : Seg addr node p l n) :
    Seg addr node' p l n := by
  induction l generalizing p with
  | nil => trivial
  | cons c l ih =>
    refine ⟨h c List.mem_cons_self _ _ hseg.1, ih (fun d hd => ?_) hseg.2⟩
    exact h d (List.mem_cons_of_mem c hd)

section Laid

variable {first stop : α → Nat} {lo lo' hi hi' : Nat} {d : α}

def Laid (first stop : α → Nat) : Nat → List α → Nat → Prop
  | lo, [], hi => lo ≤ hi
  | lo, c :: l, hi => lo ≤ first c ∧ first c ≤ stop c ∧ Laid first stop (stop c) l hi

theorem Laid.le (h : Laid first stop lo l hi) : lo ≤ hi := by
  induction l generalizing lo with
  | nil => exact h
  | cons c l ih => exact h.1.trans (h.2.1.trans (ih h.2.2))

theorem Laid.mono (h : Laid first stop lo l hi) (hlo : lo' ≤ lo) (hhi : hi ≤ hi') :
    Laid first stop lo' l hi' := by
  induction l generalizing lo lo' with
  | nil => exact hlo.trans (h.le.trans hhi)
  | cons c l ih => exact ⟨hlo.trans h.1, h.2.1, ih h.2.2 le_rfl⟩

theorem laid_append :
    Laid first stop lo (l₁ ++ l₂) hi ↔
      ∃ mid, Laid first stop lo l₁ mid ∧ Laid first stop mid l₂ hi := by
  induction l₁ generalizing lo with
  | nil => exact ⟨fun h => ⟨lo, le_rfl, h⟩, fun ⟨_, h₁, h₂⟩ => h₂.mono h₁ le_rfl⟩
  | cons c l₁ ih =>
    constructor
    · rintro ⟨hlo, hc, h⟩
      obtain ⟨mid, h₁, h₂⟩ := ih.mp h
      exact ⟨mid, ⟨hlo, hc, h₁⟩, h₂⟩
    · rintro ⟨mid, ⟨hlo, hc, h₁⟩, h₂⟩
      exact ⟨hlo, hc, ih.mpr ⟨mid, h₁, h₂⟩⟩

theorem Laid.inside (h : Laid first stop lo l hi) (hc : c ∈ l) : lo ≤ first c ∧ stop c ≤ hi := by
  induction l generalizing lo with
  | nil => cases hc
  | cons d l ih =>
    rcases List.mem_cons.mp hc with rfl | hc
    · exact ⟨h.1, h.2.2.le⟩
    · obtain ⟨hlo, hhi⟩ := ih h.2.2 hc
      exact ⟨h.1.trans (h.2.1.trans hlo), hhi⟩

theorem Laid.pairwise (h : Laid first stop lo l hi) : l.Pairwise fun c d => stop c ≤ first d := by
  induction l generalizing lo with
  | nil => exact .nil
  | cons c l ih => exact .cons (fun d hd => (h.2.2.inside hd).1) (ih h.2.2)

theorem Laid.around (h : Laid first stop lo (l₁ ++ c :: l₂) hi) :
    (∀ d ∈ l₁, stop d ≤ first c) ∧ ∀ d ∈ l₂, stop c ≤ first d := by
  obtain ⟨mid, h₁, hmid, -, h₂⟩ := laid_append.mp h
  exact ⟨fun d hd => (h₁.inside hd).2.trans hmid, fun d hd => (h₂.inside hd).1⟩

theorem Laid.eq_or_apart (h : Laid first stop lo l hi) (hc : c ∈ l) (hd : d ∈ l) :
    c = d ∨ stop c ≤ first d ∨ stop d ≤ first c := by
  obtain ⟨l₁, l₂, rfl⟩ := List.append_of_mem hc
  obtain ⟨hbefore, hbehind⟩ := h.around
  rcases List.mem_append.mp hd with hd | hd
  · exact .inr (.inr (hbefore d hd))
  · rcases List.mem_cons.mp hd with rfl | hd
    · exact .inl rfl
    · exact .inr (.inl (hbehind d hd))

end Laid

end CfKernel.Lib
