import Mathlib.Tactic

/-!
# Fallible state transformers

`Eff ε σ α` is a C function that works on a state `σ` and ends with a value or with an error
code. Changes made before an error stay in the state, as they do in C. `Post m s Q` says that
running `m` from `s` ends in an outcome and a state related by `Q`; the rules below take a
postcondition apart along the program.
-/

namespace CfKernel.Lib

def Eff (ε σ α : Type) : Type := σ → Except ε α × σ

namespace Eff

variable {ε σ α β : Type}

instance : Monad (Eff ε σ) where
  pure a := fun s => (.ok a, s)
  bind m f := fun s =>
    match m s with
    | (.ok a, t) => f a t
    | (.error e, t) => (.error e, t)

def fail (e : ε) : Eff ε σ α := fun s => (.error e, s)

def read (f : σ → Except ε α) : Eff ε σ α := fun s => (f s, s)

/-- A step that replaces the state when it succeeds. -/
def write (f : σ → Except ε σ) : Eff ε σ Unit := fun s =>
  match f s with
  | .ok t => (.ok (), t)
  | .error e => (.error e, s)

def modify (f : σ → σ) : Eff ε σ Unit := fun s => (.ok (), f s)

/-- Runs `m` and hands its outcome to the caller instead of failing with it. -/
def attempt (m : Eff ε σ α) : Eff ε σ (Except ε α) := fun s => (.ok (m s).1, (m s).2)

def Post (m : Eff ε σ α) (s : σ) (Q : Except ε α → σ → Prop) : Prop := Q (m s).1 (m s).2

variable {m : Eff ε σ α} {f : α → Eff ε σ β} {s : σ} {P : Except ε α → σ → Prop} {a : α}

theorem bind_ok {t : σ} (h : m s = (.ok a, t)) : (m >>= f) s = f a t := by
  change (match m s with | (.ok a, t) => f a t | (.error e, t) => (.error e, t)) = f a t
  rw [h]

theorem bind_error {e : ε} {t : σ} (h : m s = (.error e, t)) : (m >>= f) s = (.error e, t) := by
  change (match m s with | (.ok a, t) => f a t | (.error e, t) => (.error e, t)) = (.error e, t)
  rw [h]

theorem pure_run (a : α) (s : σ) : (pure a : Eff ε σ α) s = (.ok a, s) := rfl

theorem modify_run (g : σ → σ) (s : σ) : (modify g : Eff ε σ Unit) s = (.ok (), g s) := rfl

theorem attempt_run {r : Except ε α} {t : σ} (h : m s = (r, t)) : attempt m s = (.ok r, t) := by
  rw [attempt, h]

@[simp] theorem isOk_error (e : ε) : (.error e : Except ε α).isOk = false := rfl

@[simp] theorem isOk_ok (a : α) : (.ok a : Except ε α).isOk = true := rfl

theorem exists_of_isOk (h : (m s).1.isOk = true) : ∃ a t, m s = (.ok a, t) := by
  rcases hm : m s with ⟨_ | a, t⟩
  · rw [hm] at h
    cases h
  · exact ⟨a, t, rfl⟩

/-- What follows a step, given the outcome of the step. -/
def andThen (f : α → Eff ε σ β) : Except ε α × σ → Except ε β × σ
  | (.ok a, t) => f a t
  | (.error e, t) => (.error e, t)

@[simp] theorem andThen_ok (f : α → Eff ε σ β) (a : α) (t : σ) : andThen f (.ok a, t) = f a t := rfl

@[simp] theorem andThen_error (f : α → Eff ε σ β) (e : ε) (t : σ) :
    andThen f (.error e, t) = (.error e, t) := rfl

theorem bind_run (m : Eff ε σ α) (f : α → Eff ε σ β) (s : σ) : (m >>= f) s = andThen f (m s) := by
  rcases hm : m s with ⟨_ | a, t⟩
  · exact bind_error hm
  · exact bind_ok hm

theorem exists_of_bind_ok {b : β} {t : σ} (h : (m >>= f) s = (.ok b, t)) :
    ∃ a u, m s = (.ok a, u) ∧ f a u = (.ok b, t) := by
  rw [bind_run] at h
  rcases hm : m s with ⟨_ | a, u⟩
  · rw [hm, andThen_error] at h
    cases h
  · rw [hm, andThen_ok] at h
    exact ⟨a, u, rfl, h⟩

/-- Steps that may come back with nothing, in which case the rest is left out. -/
def bindSome (m : Eff ε σ (Option α)) (f : α → Eff ε σ (Option β)) : Eff ε σ (Option β) := do
  let r ← m
  match r with
  | none => pure none
  | some a => f a

section BindSome

variable {m : Eff ε σ (Option α)} {f : α → Eff ε σ (Option β)} {t : σ}

theorem bindSome_none (h : m s = (.ok none, t)) : bindSome m f s = (.ok none, t) := by
  rw [bindSome, bind_ok h]
  rfl

theorem bindSome_some (h : m s = (.ok (some a), t)) : bindSome m f s = f a t := by
  rw [bindSome, bind_ok h]

end BindSome

theorem fail_run (e : ε) (s : σ) : (fail e : Eff ε σ α) s = (.error e, s) := rfl

theorem Post.step {Q : Except ε β → σ → Prop} {t : σ} (h : m s = (.ok a, t))
    (hf : Post (f a) t Q) : Post (m >>= f) s Q := by
  rwa [Post, bind_ok h]

/-- Running `m` from `s` returns a value and a state with `Q`, or stops with `E`. -/
def Ends (m : Eff ε σ α) (s : σ) (Q : α → σ → Prop) (E : ε → σ → Prop) : Prop :=
  (∃ a t, m s = (.ok a, t) ∧ Q a t) ∨ ∃ e t, m s = (.error e, t) ∧ E e t

section Ends

variable {Q : α → σ → Prop} {R : β → σ → Prop} {E : ε → σ → Prop}

theorem ends_pure (h : Q a s) : Ends (pure a : Eff ε σ α) s Q E := .inl ⟨a, s, rfl, h⟩

theorem ends_fail {e : ε} (h : E e s) : Ends (fail e : Eff ε σ α) s Q E := .inr ⟨e, s, rfl, h⟩

theorem Ends.congr {m' : Eff ε σ α} (hrun : m s = m' s) (h : Ends m' s Q E) : Ends m s Q E := by
  rwa [Ends, hrun]

theorem Ends.ite {c : Prop} [Decidable c] {m' : Eff ε σ α} (ht : c → Ends m s Q E)
    (hf : ¬ c → Ends m' s Q E) : Ends (if c then m else m') s Q E := by
  split_ifs with hc
  · exact ht hc
  · exact hf hc

theorem Ends.of_ok {t : σ} (hrun : m s = (.ok a, t)) (h : Q a t) : Ends m s Q E :=
  .inl ⟨a, t, hrun, h⟩

theorem Ends.bind (h : Ends m s Q E) (hf : ∀ a t, Q a t → Ends (f a) t R E) :
    Ends (m >>= f) s R E := by
  rcases h with ⟨a, t, hrun, hQ⟩ | ⟨e, t, hrun, hE⟩
  · have hrest := hf a t hQ
    rwa [Ends, ← bind_ok (f := f) hrun] at hrest
  · exact .inr ⟨e, t, bind_error hrun, hE⟩

theorem Ends.step {t : σ} (hrun : m s = (.ok a, t)) (h : Ends (f a) t R E) :
    Ends (m >>= f) s R E := by
  rwa [Ends, bind_ok hrun]

theorem Ends.mono {Q' : α → σ → Prop} {E' : ε → σ → Prop} (h : Ends m s Q E)
    (hQ : ∀ a t, Q a t → Q' a t) (hE : ∀ e t, E e t → E' e t) : Ends m s Q' E' := by
  rcases h with ⟨a, t, hrun, hq⟩ | ⟨e, t, hrun, he⟩
  · exact .inl ⟨a, t, hrun, hQ a t hq⟩
  · exact .inr ⟨e, t, hrun, hE e t he⟩

theorem Ends.ok {t : σ} (h : Ends m s Q E) (hrun : m s = (.ok a, t)) : Q a t := by
  rcases h with ⟨a', t', hrun', hQ⟩ | ⟨e, t', hrun', -⟩
  · rw [hrun] at hrun'
    cases hrun'
    exact hQ
  · rw [hrun] at hrun'
    cases hrun'

end Ends

/-- Whatever its outcome, `m` moves the state along `R`. -/
def Moves (R : σ → σ → Prop) (m : Eff ε σ α) : Prop := ∀ s, R s (m s).2

section Moves

variable {R : σ → σ → Prop}

theorem moves_pure [Std.Refl R] (a : α) : Moves R (pure a : Eff ε σ α) := fun s => Std.Refl.refl s

theorem moves_fail [Std.Refl R] (e : ε) : Moves R (fail e : Eff ε σ α) := fun s => Std.Refl.refl s

theorem Moves.bind [IsTrans σ R] (hm : Moves R m) (hf : ∀ a, Moves R (f a)) :
    Moves R (m >>= f) := by
  intro s
  have hs := hm s
  rw [bind_run]
  rcases hrun : m s with ⟨_ | a, t⟩
  · rwa [hrun] at hs
  · rw [hrun] at hs
    exact Trans.trans hs (hf a t)

theorem Moves.mono {R' : σ → σ → Prop} (h : Moves R m) (hR : ∀ s t, R s t → R' s t) : Moves R' m :=
  fun s => hR s _ (h s)

end Moves

end Eff

/-- A state that is a function of addresses, after a store at one of them. -/
theorem update_at_iff {ι α : Type} [DecidableEq ι] {f : ι → α} {a b : ι} {x y : α} :
    Function.update f a x b = y ↔ b = a ∧ x = y ∨ b ≠ a ∧ f b = y := by
  rw [Function.update_apply, ite_eq_iff]

/-- `n` turns of a C counting loop that starts at `k` and leaves at the first error. -/
def loopFrom {ε α : Type} (body : Nat → α → Except ε α) : Nat → Nat → α → Except ε α
  | 0, _, a => .ok a
  | n + 1, k, a => (body k a).bind (loopFrom body n (k + 1))

theorem loopFrom_ok {ε α : Type} (body : Nat → α → Except ε α) (I : Nat → α → Prop)
    (n k : Nat) (a : α) (h0 : I k a)
    (hstep : ∀ j b, k ≤ j → j < k + n → I j b → ∃ c, body j b = .ok c ∧ I (j + 1) c) :
    ∃ b, loopFrom body n k a = .ok b ∧ I (k + n) b := by
  induction n generalizing k a with
  | zero => exact ⟨a, rfl, h0⟩
  | succ n ih =>
    obtain ⟨c, hc, hI⟩ := hstep k a le_rfl (by omega) h0
    obtain ⟨b, hb, hIb⟩ := ih (k + 1) c hI (fun j b hj hjn => hstep j b (by omega) (by omega))
    refine ⟨b, ?_, by rwa [Nat.add_right_comm, Nat.add_assoc] at hIb⟩
    simp only [loopFrom, hc, Except.bind, hb]

end CfKernel.Lib
