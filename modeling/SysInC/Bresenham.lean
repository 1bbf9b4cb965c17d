/-
The **error term of Bresenham's line**: a line of `L` steps in one direction, of which `S` go a step
in the other direction too.

Behind `n` of the steps, `minor S L n` have gone the other way, which is `n * S / L` to the nearest.
The loop does not divide; it keeps `error S L n`, and whether the next step goes the other way shows
in it (`minor_succ`). Twice the error is a fixed number less `residue S L n`, and the residues of a
whole line are all the numbers below `2 * L` of one class of `2 * gcd L S` (`exists_residue`). So
the least and the greatest error of a line are known from its two lengths.
-/
import Mathlib.Algebra.Order.Ring.Int
import Mathlib.Data.Int.GCD
import Mathlib.Data.Nat.ModEq
import Mathlib.Tactic.LinearCombination
import Mathlib.Tactic.Linarith
import Mathlib.Tactic.Ring

set_option autoImplicit false

namespace SysInC.Bresenham

variable {S L : ℕ}

/-- The steps that have gone the other way too, `n` steps into the line. -/
def minor (S L n : ℕ) : ℕ := (2 * n * S + L) / (2 * L)

def residue (S L n : ℕ) : ℕ := (2 * n * S + L) % (2 * L)

/-- What the loop keeps. -/
def error (S L n : ℕ) : ℤ := (minor S L n + 1) * L - (n + 1) * S

theorem minor_residue (S L n : ℕ) :
    2 * L * minor S L n + residue S L n = 2 * n * S + L := Nat.div_add_mod _ _

theorem residue_lt (hL : 0 < L) (n : ℕ) : residue S L n < 2 * L := Nat.mod_lt _ (by omega)

theorem two_mul_error (S L n : ℕ) : 2 * error S L n = 3 * L - 2 * S - residue S L n := by
  have h : (2 * L * minor S L n + residue S L n : ℤ) = 2 * n * S + L := by
    exact_mod_cast minor_residue S L n
  unfold error
  linear_combination h

theorem minor_zero (hL : 0 < L) : minor S L 0 = 0 := by
  unfold minor
  rw [Nat.mul_zero, Nat.zero_mul, Nat.zero_add]
  exact Nat.div_eq_of_lt (by omega)

theorem minor_self (hL : 0 < L) : minor S L L = S := by
  unfold minor
  rw [Nat.add_comm, Nat.add_mul_div_left _ _ (by omega), Nat.div_eq_of_lt (by omega), Nat.zero_add]

theorem minor_mono (S L : ℕ) {m n : ℕ} (h : m ≤ n) : minor S L m ≤ minor S L n := by
  unfold minor
  gcongr

theorem minor_le (hL : 0 < L) {n : ℕ} (h : n ≤ L) : minor S L n ≤ S :=
  (minor_mono S L h).trans_eq (minor_self hL)

/-- The next step goes the other way too where the error is at most half a step. -/
theorem minor_succ (hL : 0 < L) (hS : S ≤ L) (n : ℕ) :
    minor S L (n + 1) = if 2 * error S L n ≤ L then minor S L n + 1 else minor S L n := by
  have hres := residue_lt (S := S) hL n
  have hsum : 2 * (n + 1) * S + L = residue S L n + 2 * S + 2 * L * minor S L n := by
    have := minor_residue S L n
    linarith
  have hstep : minor S L (n + 1) = (residue S L n + 2 * S) / (2 * L) + minor S L n := by
    unfold minor at hsum ⊢
    rw [hsum, Nat.add_mul_div_left _ _ (by omega)]
  rw [hstep, two_mul_error]
  split
  · rw [Nat.div_eq_of_lt_le (k := 1) (by omega) (by omega), Nat.add_comm]
  · rw [Nat.div_eq_of_lt (by omega), Nat.zero_add]

theorem error_zero (hL : 0 < L) : error S L 0 = (L : ℤ) - S := by
  unfold error
  rw [minor_zero hL]
  ring

theorem error_self (hL : 0 < L) : error S L L = (L : ℤ) - S := by
  unfold error
  rw [minor_self hL]
  ring

theorem error_succ (hL : 0 < L) (hS : S ≤ L) (n : ℕ) :
    error S L (n + 1)
      = if 2 * error S L n ≤ L then error S L n - S + L else error S L n - S := by
  have hmin := minor_succ hL hS n
  unfold error at hmin ⊢
  rw [hmin]
  split
  · push_cast
    ring
  · push_cast
    ring

theorem lt_two_mul_error (hL : 0 < L) (n : ℕ) : (L : ℤ) - 2 * S < 2 * error S L n := by
  have := residue_lt (S := S) hL n
  rw [two_mul_error]
  omega

/-! ## The errors of a whole line -/

/-- The residues are of one class. -/
theorem residue_mod (S L n : ℕ) :
    residue S L n % (2 * L.gcd S) = L % (2 * L.gcd S) := by
  have hL : 2 * L.gcd S ∣ 2 * L := Nat.mul_dvd_mul_left 2 (Nat.gcd_dvd_left L S)
  have hS : 2 * L.gcd S ∣ 2 * n * S := by
    rw [Nat.mul_right_comm]
    exact Dvd.dvd.mul_right (Nat.mul_dvd_mul_left 2 (Nat.gcd_dvd_right L S)) n
  unfold residue
  rw [Nat.mod_mod_of_dvd _ hL, Nat.add_mod, Nat.mod_eq_zero_of_dvd hS, Nat.zero_add, Nat.mod_mod]

/-- All of the class below `2 * L` are residues of the line. -/
theorem exists_residue (hL : 0 < L) {r : ℕ} (hr : r < 2 * L)
    (hclass : r % (2 * L.gcd S) = L % (2 * L.gcd S)) : ∃ n < L, residue S L n = r := by
  obtain ⟨l, s, hcop, hl, hs⟩ := Nat.exists_coprime L S
  generalize L.gcd S = g at hclass hl hs
  have hl0 : l ≠ 0 := by
    rintro rfl
    omega
  have hg : 0 < g := by
    apply Nat.pos_of_ne_zero
    rintro rfl
    omega
  -- the multiples of the coprime part reach every class
  obtain ⟨n, hn, hmul⟩ := Nat.exists_mul_mod_eq_of_coprime
    (r / (2 * g) + (l - 1) * (L / (2 * g))) hcop.symm hl0
  refine ⟨n, hn.trans_le (hl ▸ Nat.le_mul_of_pos_right l hg), ?_⟩
  have hscaled : 2 * g * (s * n) + L
      ≡ 2 * g * (r / (2 * g) + (l - 1) * (L / (2 * g))) + L [MOD 2 * g * l] :=
    (Nat.ModEq.mul_left' (2 * g) hmul).add_right L
  have hr' := Nat.div_add_mod r (2 * g)
  have hL' := Nat.div_add_mod L (2 * g)
  have hpred : (l - 1) * (L / (2 * g)) + L / (2 * g) = l * (L / (2 * g)) := by
    rw [← Nat.succ_mul, Nat.succ_eq_add_one, Nat.sub_add_cancel (Nat.pos_of_ne_zero hl0)]
  have hsum : 2 * g * (r / (2 * g) + (l - 1) * (L / (2 * g))) + L
      = r + 2 * g * l * (L / (2 * g)) := by
    calc 2 * g * (r / (2 * g) + (l - 1) * (L / (2 * g))) + L
        = 2 * g * (r / (2 * g)) + 2 * g * ((l - 1) * (L / (2 * g)))
            + (2 * g * (L / (2 * g)) + L % (2 * g)) := by rw [hL', Nat.mul_add]
      _ = 2 * g * (r / (2 * g)) + r % (2 * g)
            + 2 * g * ((l - 1) * (L / (2 * g)) + L / (2 * g)) := by
          rw [hclass]
          ring
      _ = r + 2 * g * l * (L / (2 * g)) := by
          rw [hr', hpred]
          ring
  have hmod : 2 * L = 2 * g * l := by
    rw [hl]
    ring
  have hline : 2 * n * S + L = 2 * g * (s * n) + L := by
    rw [hs]
    ring
  unfold residue
  rw [hline, hmod, hscaled, hsum, Nat.add_mul_mod_self_left, Nat.mod_eq_of_lt (hmod ▸ hr)]

theorem gcd_le (hL : 0 < L) : 0 < L.gcd S ∧ L.gcd S ≤ L :=
  ⟨Nat.gcd_pos_of_pos_left S hL, Nat.gcd_le_left S hL⟩

theorem class_lt (hL : 0 < L) : L % (2 * L.gcd S) < 2 * L.gcd S := by
  have := (gcd_le (S := S) hL).1
  exact Nat.mod_lt L (by omega)

/-- The least residue from a multiple `t` of `2 * gcd L S` on is that of the class. -/
theorem forall_residue_ge_iff (hL : 0 < L) {t : ℕ} (ht : 2 * L.gcd S ∣ t)
    (hlt : t + L % (2 * L.gcd S) < 2 * L) (c : ℕ) :
    (∀ n < L, t ≤ residue S L n → c ≤ residue S L n) ↔ c ≤ t + L % (2 * L.gcd S) := by
  obtain ⟨u, rfl⟩ := ht
  constructor
  · intro h
    obtain ⟨n, hn, hres⟩ := exists_residue (S := S) hL hlt (by
      rw [Nat.mul_add_mod, Nat.mod_mod])
    rw [← hres]
    apply h n hn
    rw [hres]
    exact Nat.le_add_right _ _
  · intro h n _ hle
    apply h.trans
    have hclass := class_lt (S := S) hL
    have hdiv := Nat.div_add_mod (residue S L n) (2 * L.gcd S)
    rw [residue_mod] at hdiv
    -- the quotient is at least `u`, for the rest is less than the divisor
    have hu : u ≤ residue S L n / (2 * L.gcd S) := by
      apply (Nat.le_div_iff_mul_le (by omega)).mpr
      rwa [Nat.mul_comm]
    have := Nat.mul_le_mul_left (2 * L.gcd S) hu
    omega

/-- The greatest residue is that of the class. -/
theorem forall_residue_le_iff (hL : 0 < L) (c : ℕ) :
    (∀ n < L, residue S L n ≤ c) ↔ 2 * L + L % (2 * L.gcd S) ≤ c + 2 * L.gcd S := by
  have hg := gcd_le (S := S) hL
  have hclass := class_lt (S := S) hL
  have hdvd : 2 * L.gcd S ∣ 2 * L := Nat.mul_dvd_mul_left 2 (Nat.gcd_dvd_left L S)
  obtain ⟨u, hu⟩ := hdvd
  constructor
  · intro h
    obtain ⟨n, hn, hres⟩ := exists_residue (S := S) hL
      (r := 2 * L - 2 * L.gcd S + L % (2 * L.gcd S)) (by omega) (by
        rw [hu, ← Nat.mul_sub_one, Nat.mul_add_mod, Nat.mod_mod])
    have := h n hn
    omega
  · intro h n _
    have hlt := residue_lt (S := S) hL n
    have hdiv := Nat.div_add_mod (residue S L n) (2 * L.gcd S)
    rw [residue_mod] at hdiv
    have hquot : residue S L n / (2 * L.gcd S) < u := by
      apply Nat.div_lt_of_lt_mul
      rwa [← hu]
    have hmul := Nat.mul_le_mul_left (2 * L.gcd S) (Nat.succ_le_of_lt hquot)
    rw [Nat.mul_succ] at hmul
    omega

end SysInC.Bresenham
