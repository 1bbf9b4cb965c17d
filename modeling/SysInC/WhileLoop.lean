/-
Loops `while (c) body` whose body may fail.

A loop is run with a bound on its turns. Where each turn makes a measure of the state smaller the
bound is never what ends it, and then the loop returns exactly when every turn that it comes to
does. What that asks of the first state is either a predicate `P` that the turns carry along, or
said of all states that are reached.
-/
import SysInC.PartialRun
import Mathlib.Logic.Relation

set_option autoImplicit false

namespace SysInC.WhileLoop

open PartialRun

variable {σ : Type*}

/-- `while (c) body`, left after `fuel` turns. -/
def run (c : σ → Bool) (body : σ → Option σ) : ℕ → σ → Option σ
  | 0, s => some s
  | fuel + 1, s => if c s then (body s).bind (run c body fuel) else some s

variable {c : σ → Bool} {body : σ → Option σ} {G P inv : σ → Prop} {size : σ → ℕ}

/-- The loop returns exactly under `P`, if `P` gives the condition `G` of the turn that is next and
a turn does not change whether `P` holds; and its own condition is false then. -/
theorem returns_run (hpos : ∀ s, inv s → c s = true → 0 < size s)
    (hdone : ∀ s, c s = false → P s) (hnext : ∀ s, inv s → c s = true → P s → G s)
    (hbody : ∀ s, inv s → c s = true →
      Returns (body s) (G s) fun s' => (inv s' ∧ size s' < size s) ∧ (P s' ↔ P s))
    {fuel : ℕ} {s : σ} (hs : inv s) (hfuel : size s ≤ fuel) :
    Returns (run c body fuel s) (P s) fun t => inv t ∧ c t = false := by
  induction fuel generalizing s with
  | zero =>
    cases hc : c s with
    | false => exact (Returns.pure ⟨hs, hc⟩).congr (iff_of_true trivial (hdone s hc))
    | true => exact absurd (hpos s hs hc) (by omega)
  | succ fuel ih =>
    rw [run]
    cases hc : c s with
    | false =>
      rw [if_neg Bool.false_ne_true]
      exact (Returns.pure ⟨hs, hc⟩).congr (iff_of_true trivial (hdone s hc))
    | true =>
      rw [if_pos rfl]
      constructor
      · intro hP
        obtain ⟨s', hs'⟩ := (hbody s hs hc).1 (hnext s hs hc hP)
        obtain ⟨-, ⟨hinv, hsize⟩, hkeeps⟩ := (hbody s hs hc).2 s' hs'
        rw [hs', Option.bind_some]
        exact (ih hinv (by omega)).1 (hkeeps.mpr hP)
      · intro t ht
        obtain ⟨s', hs', ht⟩ := Option.bind_eq_some_iff.mp ht
        obtain ⟨-, ⟨hinv, hsize⟩, hkeeps⟩ := (hbody s hs hc).2 s' hs'
        obtain ⟨hP, hend⟩ := (ih hinv (by omega)).2 t ht
        exact ⟨hkeeps.mp hP, hend⟩

variable (c body) in
/-- From `s` the loop comes to `s'`, at its condition. -/
def Reaches : σ → σ → Prop :=
  Relation.ReflTransGen fun s s' => c s = true ∧ body s = some s'

theorem reaches_iff {s s' t : σ} (hc : c s = true) (hs' : body s = some s') :
    Reaches c body s t ↔ t = s ∨ Reaches c body s' t := by
  constructor
  · intro h
    rcases Relation.ReflTransGen.cases_head h with rfl | ⟨u, ⟨-, hu⟩, hrest⟩
    · exact Or.inl rfl
    · rw [hs'] at hu
      obtain rfl := Option.some.inj hu
      exact Or.inr hrest
  · rintro (rfl | h)
    · exact Relation.ReflTransGen.refl
    · exact Relation.ReflTransGen.head ⟨hc, hs'⟩ h

/-- The loop returns exactly when each turn that it comes to meets its condition. -/
theorem returns_run_reaches (hpos : ∀ s, inv s → c s = true → 0 < size s)
    (hbody : ∀ s, inv s → c s = true →
      Returns (body s) (G s) fun s' => inv s' ∧ size s' < size s)
    {fuel : ℕ} {s : σ} (hs : inv s) (hfuel : size s ≤ fuel) :
    Returns (run c body fuel s) (∀ t, Reaches c body s t → c t = true → G t)
      fun t => inv t ∧ c t = false := by
  apply returns_run (G := G) (P := fun s => ∀ t, Reaches c body s t → c t = true → G t) hpos ?_ ?_
    ?_ hs hfuel
  · intro s hc t ht hct
    rcases Relation.ReflTransGen.cases_head ht with rfl | ⟨u, ⟨hcs, -⟩, -⟩
    · exact absurd hct (by rw [hc]; exact Bool.false_ne_true)
    · exact absurd hcs (by rw [hc]; exact Bool.false_ne_true)
  · intro s _ hc hP
    exact hP s Relation.ReflTransGen.refl hc
  · intro s hs hc
    refine ⟨(hbody s hs hc).1, fun s' hs' => ?_⟩
    obtain ⟨hG, hinv⟩ := (hbody s hs hc).2 s' hs'
    refine ⟨hG, hinv, ⟨fun hP t ht hct => ?_, fun hP t ht => ?_⟩⟩
    · rcases (reaches_iff hc hs').mp ht with rfl | ht
      · exact hG
      · exact hP t ht hct
    · exact hP t ((reaches_iff hc hs').mpr (Or.inr ht))

end SysInC.WhileLoop
