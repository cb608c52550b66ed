/-!
# Runs of a transition system

`Reach step ok s₀ s` says that `s` is reached from `s₀` by requests, each of which meets `ok` in
the state it is issued in.
-/

namespace CfKernel.Lib

variable {ρ σ : Type} {step : ρ → σ → σ} {ok : ρ → σ → Prop} {s₀ s : σ}

inductive Reach (step : ρ → σ → σ) (ok : ρ → σ → Prop) (s₀ : σ) : σ → Prop where
  | start : Reach step ok s₀ s₀
  | step {s : σ} (r : ρ) : Reach step ok s₀ s → ok r s → Reach step ok s₀ (step r s)

/-- What holds at the start and is kept by every step holds in every state reached. -/
theorem Reach.invariant (I : σ → Prop) (h0 : I s₀) (hstep : ∀ r s, I s → ok r s → I (step r s))
    (h : Reach step ok s₀ s) : I s := by
  induction h with
  | start => exact h0
  | step r _ hr ih => exact hstep r _ ih hr

end CfKernel.Lib
