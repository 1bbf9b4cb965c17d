/-
Arithmetic progressions of integers as lists, and the number of steps that cover a distance.

Two progressions are the same list when they are equally long, begin with the same number and go
on in the same steps, as far as there are that many numbers (`progression_eq_iff`).
-/
import Mathlib.Algebra.Order.Ring.Int
import Mathlib.Data.List.Basic
import Mathlib.Tactic.Linarith
import Mathlib.Tactic.Ring

set_option autoImplicit false

namespace SysInC.Progression

/-! ## Steps -/

/-- The number of steps of size `d` that cover a distance. -/
def steps (gap d : ℤ) : ℕ := if 0 < gap then ((gap - 1) / d + 1).toNat else 0

variable {gap d f f' : ℤ} {k k' : ℕ}

theorem steps_of_nonpos (h : gap ≤ 0) : steps gap d = 0 := if_neg (not_lt.mpr h)

theorem steps_succ (hd : 0 < d) (h : 0 < gap) : steps gap d = steps (gap - d) d + 1 := by
  have hpos : 0 ≤ (gap - 1) / d := Int.ediv_nonneg (by omega) hd.le
  have hsub : (gap - d - 1) / d = (gap - 1) / d - 1 := by
    rw [show gap - d - 1 = gap - 1 + d * (-1) by ring, Int.add_mul_ediv_left _ _ hd.ne']
    ring
  unfold steps
  rw [if_pos h]
  split
  · rw [hsub]
    have : 0 ≤ (gap - d - 1) / d := Int.ediv_nonneg (by omega) hd.le
    omega
  · have hlt : (gap - 1) / d = 0 := Int.ediv_eq_zero_of_lt (by omega) (by omega)
    rw [hlt]
    rfl

theorem steps_eq_zero_iff (gap : ℤ) (hd : 0 < d) : steps gap d = 0 ↔ gap ≤ 0 := by
  refine ⟨fun h => ?_, steps_of_nonpos⟩
  by_contra hpos
  rw [steps_succ hd (not_le.mp hpos)] at h
  exact Nat.succ_ne_zero _ h

/-- Before the last step the distance is not covered. -/
theorem mul_lt_of_lt_steps (hd : 0 < d) (hk : k < steps gap d) : k * d < gap := by
  induction k generalizing gap with
  | zero =>
      by_contra h
      rw [steps_of_nonpos (by simpa using h)] at hk
      exact absurd hk (Nat.lt_irrefl 0)
  | succ k ih =>
      by_cases h : 0 < gap
      · rw [steps_succ hd h] at hk
        have := ih (Nat.lt_of_succ_lt_succ hk)
        push_cast
        linarith
      · rw [steps_of_nonpos (not_lt.mp h)] at hk
        omega

/-- With the last step it is. -/
theorem le_steps_mul (hd : 0 < d) (gap : ℤ) : gap ≤ steps gap d * d := by
  induction hk : steps gap d generalizing gap with
  | zero =>
      by_contra h
      rw [steps_succ hd (by simpa using h)] at hk
      omega
  | succ k ih =>
      by_cases h : 0 < gap
      · rw [steps_succ hd h] at hk
        have := ih (gap - d) (Nat.succ_injective hk)
        push_cast
        linarith
      · rw [steps_of_nonpos (not_lt.mp h)] at hk
        omega

/-- The steps end at the distance where its size divides it. -/
theorem steps_mul_eq_iff (hd : 0 < d) (h : 0 ≤ gap) : steps gap d * d = gap ↔ d ∣ gap := by
  refine ⟨fun heq => ⟨steps gap d, by rw [mul_comm]; exact heq.symm⟩, ?_⟩
  rintro ⟨k, rfl⟩
  have hle := le_steps_mul hd (d * k)
  by_contra hne
  have hlt : d * k < d * steps (d * k) d := by
    rw [mul_comm d (steps (d * k) d)]
    exact lt_of_le_of_ne hle fun heq => hne heq.symm
  have hk : k < steps (d * k) d := lt_of_mul_lt_mul_left hlt hd.le
  have hpos : 0 ≤ k := nonneg_of_mul_nonneg_right h hd
  have hless : k.toNat * d < d * k := mul_lt_of_lt_steps hd (by omega)
  rw [Int.toNat_of_nonneg hpos, mul_comm] at hless
  exact lt_irrefl _ hless

/-! ## Progressions -/

def progression (first step : ℤ) : ℕ → List ℤ
  | 0 => []
  | k + 1 => first :: progression (first + step) step k

@[simp] theorem length_progression (f d : ℤ) (k : ℕ) : (progression f d k).length = k := by
  induction k generalizing f with
  | zero => rfl
  | succ k ih => exact congrArg Nat.succ (ih _)

theorem mem_progression {i : ℤ} : i ∈ progression f d k ↔ ∃ j < k, i = f + j * d := by
  induction k generalizing f with
  | zero => simp [progression]
  | succ k ih =>
      rw [progression, List.mem_cons, ih]
      constructor
      · rintro (rfl | ⟨j, hj, rfl⟩)
        · exact ⟨0, Nat.succ_pos k, by simp⟩
        · refine ⟨j + 1, Nat.succ_lt_succ hj, ?_⟩
          push_cast
          ring
      · rintro ⟨j, hj, rfl⟩
        cases j with
        | zero => exact Or.inl (by simp)
        | succ j =>
            refine Or.inr ⟨j, Nat.lt_of_succ_lt_succ hj, ?_⟩
            push_cast
            ring

theorem getElem_progression {j : ℕ} (h : j < (progression f d k).length) :
    (progression f d k)[j] = f + j * d := by
  induction k generalizing f j with
  | zero => cases h
  | succ k ih =>
      cases j with
      | zero => simp [progression]
      | succ j =>
          simp only [progression, List.getElem_cons_succ, ih]
          push_cast
          ring

/-- The numbers of a progression upwards that ends before it covers `gap`. -/
theorem mem_upwards {i : ℤ} (hd : 0 < d) (hk : k ≤ steps gap d) (h : i ∈ progression f d k) :
    f ≤ i ∧ i < f + gap := by
  obtain ⟨j, hj, rfl⟩ := mem_progression.mp h
  have hpos : 0 ≤ j * d := mul_nonneg (Int.natCast_nonneg j) hd.le
  have hlt := mul_lt_of_lt_steps hd (hj.trans_le hk)
  exact ⟨by linarith, by linarith⟩

/-- And of one downwards. -/
theorem mem_downwards {i : ℤ} (hd : d < 0) (hk : k ≤ steps gap (-d))
    (h : i ∈ progression f d k) : i ≤ f ∧ f - gap < i := by
  obtain ⟨j, hj, rfl⟩ := mem_progression.mp h
  have hpos : 0 ≤ j * -d := mul_nonneg (Int.natCast_nonneg j) (neg_nonneg.mpr hd.le)
  have hlt := mul_lt_of_lt_steps (neg_pos.mpr hd) (hj.trans_le hk)
  exact ⟨by linarith, by linarith⟩

/-- The numbers `first`, `first + step` and so on, `count` of them. -/
structure Run where
  first : ℤ
  count : ℕ
  step : ℤ

def Run.numbers (r : Run) : List ℤ := progression r.first r.step r.count

/-- Equally many numbers, the same first one, and the same steps between them. -/
def Run.Same (r r' : Run) : Prop :=
  r.count = r'.count ∧ (r.count = 0 ∨ r.first = r'.first) ∧ (r.count ≤ 1 ∨ r.step = r'.step)

instance (r r' : Run) : Decidable (r.Same r') := inferInstanceAs (Decidable (_ ∧ _))

theorem Run.numbers_eq_iff (r r' : Run) : r.numbers = r'.numbers ↔ r.Same r' := by
  obtain ⟨f, k, d⟩ := r
  obtain ⟨f', k', d'⟩ := r'
  unfold Run.numbers Run.Same
  dsimp only
  constructor
  · intro h
    have hk : k = k' := by simpa using congrArg List.length h
    subst hk
    refine ⟨rfl, ?_⟩
    rcases k with _ | _ | k
    · exact ⟨Or.inl rfl, Or.inl (Nat.zero_le 1)⟩
    · exact ⟨Or.inr (List.cons.inj h).1, Or.inl le_rfl⟩
    · obtain ⟨hfirst, hrest⟩ := List.cons.inj h
      have hsecond := (List.cons.inj hrest).1
      exact ⟨Or.inr hfirst, Or.inr (by omega)⟩
  · rintro ⟨rfl, hfirst, hstep⟩
    rcases k with _ | _ | k
    · rfl
    · rw [hfirst.resolve_left Nat.one_ne_zero]
      rfl
    · rw [hfirst.resolve_left (by omega), hstep.resolve_left (by omega)]

end SysInC.Progression
