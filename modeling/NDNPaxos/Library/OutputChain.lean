import Mathlib.Tactic.Common

/-!
# Chains of steps with outputs

A step relation whose steps put out a list, and its chains, which put out the
concatenation.  A property of the state and of everything put out so far holds
along a chain when every step preserves it.
-/

inductive OutputChain {State Output : Type*} (step : State → List Output → State → Prop) :
    State → List Output → State → Prop where
  | nil (state : State) : OutputChain step state [] state
  | cons {state next final : State} {outs outs' : List Output}
      (hstep : step state outs next) (hrest : OutputChain step next outs' final) :
      OutputChain step state (outs ++ outs') final

namespace OutputChain

variable {State Output : Type*} {step step' : State → List Output → State → Prop}

theorem single {state final : State} {outs : List Output} (hstep : step state outs final) :
    OutputChain step state outs final := by
  have hchain := cons hstep (nil final)
  rwa [List.append_nil] at hchain

theorem append {state next final : State} {outs outs' : List Output}
    (hfirst : OutputChain step state outs next)
    (hsecond : OutputChain step next outs' final) :
    OutputChain step state (outs ++ outs') final := by
  induction hfirst with
  | nil state => exact hsecond
  | cons hstep _ ih =>
      rw [List.append_assoc]
      exact cons hstep (ih hsecond)

/-- A chain of steps that are themselves chains of another relation. -/
theorem bind {state final : State} {outs : List Output}
    (hchain : OutputChain step state outs final)
    (hsteps : ∀ state outs next, step state outs next → OutputChain step' state outs next) :
    OutputChain step' state outs final := by
  induction hchain with
  | nil state => exact nil state
  | cons hstep _ ih => exact (hsteps _ _ _ hstep).append ih

theorem invariant (invariant : State → List Output → Prop)
    (hpreserved : ∀ state log outs next, invariant state log → step state outs next →
      invariant next (log ++ outs))
    {state final : State} {outs log : List Output}
    (hchain : OutputChain step state outs final) (hinitial : invariant state log) :
    invariant final (log ++ outs) := by
  induction hchain generalizing log with
  | nil state => rwa [List.append_nil]
  | cons hstep _ ih =>
      rw [← List.append_assoc]
      exact ih (hpreserved _ _ _ _ hinitial hstep)

theorem preserves (holds : State → Prop)
    (hpreserved : ∀ state outs next, holds state → step state outs next → holds next)
    {state final : State} {outs : List Output} (hchain : OutputChain step state outs final)
    (hinitial : holds state) : holds final := by
  induction hchain with
  | nil state => exact hinitial
  | cons hstep _ ih => exact ih (hpreserved _ _ _ hinitial hstep)

end OutputChain
