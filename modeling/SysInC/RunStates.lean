/-
The states that a run goes through, and its steps, each with the state before it.

Where a state is good after a step exactly if the step meets a condition, the whole run is good
exactly if all of its steps meet it (`states_iff`). The invariant may say more than that the state
is good: it is what the next step needs.
-/
import Mathlib.Data.List.Basic
import Mathlib.Tactic.Common

set_option autoImplicit false

namespace SysInC.RunStates

variable {σ ε : Type*}

/-- The states of a run, the first and the last one among them. -/
def states (step : σ → ε → σ) (s : σ) : List ε → List σ
  | [] => [s]
  | e :: events => s :: states step (step s e) events

/-- The steps of a run, each with the state before it. -/
def steps (step : σ → ε → σ) (s : σ) : List ε → List (σ × ε)
  | [] => []
  | e :: events => (s, e) :: steps step (step s e) events

variable {step : σ → ε → σ} {inv good : σ → Prop} {cond : σ → ε → Prop}

theorem mem_states_self (step : σ → ε → σ) (s : σ) (events : List ε) :
    s ∈ states step s events := by
  cases events with
  | nil => exact List.mem_singleton_self s
  | cons e events => exact List.mem_cons_self

/-- What every step keeps holds in every state of a run. -/
theorem states_keep (hstep : ∀ s e, inv s → inv (step s e)) {s : σ} (h : inv s) (events : List ε) :
    ∀ u ∈ states step s events, inv u := by
  induction events generalizing s with
  | nil =>
      intro u hu
      rwa [List.mem_singleton.mp hu]
  | cons e events ih =>
      rw [states, List.forall_mem_cons]
      exact ⟨h, ih (hstep s e h)⟩

/-- The same for the states that the steps start from. -/
theorem steps_keep (hstep : ∀ s e, inv s → inv (step s e)) {s : σ} (h : inv s) (events : List ε) :
    ∀ p ∈ steps step s events, inv p.1 := by
  induction events generalizing s with
  | nil => exact fun p hp => absurd hp List.not_mem_nil
  | cons e events ih =>
      rw [steps, List.forall_mem_cons]
      exact ⟨h, ih (hstep s e h)⟩

theorem map_steps (step : σ → ε → σ) (s : σ) (events : List ε) :
    (steps step s events).map Prod.snd = events := by
  induction events generalizing s with
  | nil => rfl
  | cons e events ih => rw [steps, List.map_cons, ih]

theorem states_iff (hgood : ∀ s, inv s → good s)
    (hstep : ∀ s e, inv s → cond s e → inv (step s e))
    (hfail : ∀ s e, inv s → ¬ cond s e → ¬ good (step s e)) {s : σ} (h : inv s)
    (events : List ε) :
    (∀ u ∈ states step s events, good u) ↔ ∀ p ∈ steps step s events, cond p.1 p.2 := by
  induction events generalizing s with
  | nil =>
      simp only [states, steps, List.mem_singleton, forall_eq, List.not_mem_nil, false_implies,
        implies_true, iff_true]
      exact hgood s h
  | cons e events ih =>
      rw [states, steps, List.forall_mem_cons, List.forall_mem_cons]
      constructor
      · rintro ⟨-, hrest⟩
        have hcond : cond s e := by
          -- a step that fails leaves a state of the run that is not good
          by_contra hnot
          exact hfail s e h hnot (hrest _ (mem_states_self step _ events))
        exact ⟨hcond, (ih (hstep s e h hcond)).mp hrest⟩
      · rintro ⟨hcond, hrest⟩
        exact ⟨hgood s h, (ih (hstep s e h hcond)).mpr hrest⟩

end SysInC.RunStates
