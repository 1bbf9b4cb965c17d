/-
Newton's iteration for the integer square root, and how many turns of it are enough.

A turn from `r` stays below `w` exactly as long as `r` stays below `back N w`. So the starts from
which `k` turns come within one of the root are those below `k` steps of `back` from the first value
that is too large; nothing has to be said about how fast the iteration converges.
-/
import Mathlib.Data.Nat.Sqrt
import Mathlib.Logic.Function.Iterate
import Mathlib.Tactic.Linarith
import Mathlib.Tactic.Ring

set_option autoImplicit false

namespace SysInC.NewtonSqrt

/-- One turn. -/
def newton (N r : ℕ) : ℕ := (r + N / r) / 2

/-- The least start from which a turn does not get below `w`. -/
def back (N w : ℕ) : ℕ := w + (Nat.sqrt (w ^ 2 - N - 1) + 1)

variable {N N' r w w' : ℕ}

theorem le_newton_iff (hr : 0 < r) : w ≤ newton N r ↔ (2 * w - r) * r ≤ N := by
  rw [newton, Nat.le_div_iff_mul_le Nat.two_pos, Nat.mul_comm w 2, ← Nat.le_div_iff_mul_le hr,
    Nat.sub_le_iff_le_add']

/-- No turn gets below the root. -/
theorem sqrt_le_newton (N : ℕ) (hr : 0 < r) : Nat.sqrt N ≤ newton N r := by
  rw [le_newton_iff hr]
  refine le_trans ?_ (Nat.sqrt_le' N)
  rcases le_total (2 * Nat.sqrt N) r with hle | hle
  · rw [Nat.sub_eq_zero_of_le hle, Nat.zero_mul]
    exact Nat.zero_le _
  · obtain ⟨d, hd⟩ := Nat.exists_eq_add_of_le hle
    rw [hd, Nat.add_sub_cancel_left]
    nlinarith [sq_nonneg ((d : ℤ) - r)]

/-- A turn from the root or above it. -/
theorem newton_le {b : ℕ} (hpos : 0 < Nat.sqrt N) (hr : Nat.sqrt N ≤ r) (hrb : r ≤ b)
    (hb : Nat.sqrt N + 2 ≤ b) : N / r ≤ Nat.sqrt N + 2 ∧ newton N r ≤ b := by
  have hlt := Nat.lt_succ_sqrt' N
  have hdiv : N / Nat.sqrt N ≤ Nat.sqrt N + 2 := by
    rw [Nat.div_le_iff_le_mul_add_pred hpos]
    nlinarith
  have hquot : N / r ≤ Nat.sqrt N + 2 := (Nat.div_le_div_left hr hpos).trans hdiv
  refine ⟨hquot, ?_⟩
  unfold newton
  omega

theorem lt_back (N w : ℕ) : w < back N w := by
  unfold back
  omega

/-! ## Backwards -/

/-- A turn is large exactly from `back` on. -/
theorem le_newton_iff_back (hpos : 0 < Nat.sqrt N) (hw : Nat.sqrt N + 2 ≤ w)
    (hr : Nat.sqrt N ≤ r) : w ≤ newton N r ↔ back N w ≤ r := by
  have hlt := Nat.lt_succ_sqrt' N
  generalize Nat.sqrt N = s at *
  rw [le_newton_iff (hpos.trans_le hr)]
  rcases le_total r w with hrw | hwr
  · -- below `w` a turn does not get there
    refine iff_of_false (fun hle => ?_) fun hle => absurd hle (hrw.trans_lt (lt_back N w)).not_ge
    obtain ⟨d, rfl⟩ := Nat.exists_eq_add_of_le hr
    obtain ⟨e, rfl⟩ := Nat.exists_eq_add_of_le hrw
    have hsub : 2 * (s + d + e) - (s + d) = s + d + 2 * e := by omega
    rw [hsub] at hle
    have hde : 2 ≤ d + e := by omega
    nlinarith [Nat.zero_le (d * e), Nat.zero_le (d * d), Nat.zero_le (s * (d + e - 2))]
  · obtain ⟨d, rfl⟩ := Nat.exists_eq_add_of_le hwr
    have hsq : N + 1 ≤ w ^ 2 := by nlinarith
    obtain ⟨m, hm⟩ := Nat.exists_eq_add_of_le hsq
    have hback : back N w ≤ w + d ↔ m < d ^ 2 := by
      have hdiff : w ^ 2 - N - 1 = m := by omega
      rw [back, hdiff, Nat.add_le_add_iff_left, Nat.succ_le_iff, Nat.sqrt_lt']
    rw [hback]
    rcases le_total (2 * w) (w + d) with hle | hle
    · rw [Nat.sub_eq_zero_of_le hle, Nat.zero_mul]
      exact iff_of_true (Nat.zero_le _) (by nlinarith)
    · obtain ⟨e, rfl⟩ : ∃ e, w = d + e := Nat.exists_eq_add_of_le (by omega)
      have hsub : 2 * (d + e) - (d + e + d) = e := by omega
      rw [hsub]
      constructor
      · intro hN
        nlinarith
      · intro hm'
        nlinarith

/-- `k` turns are large exactly from `k` steps backwards on. -/
theorem le_iterate_newton_iff (hpos : 0 < Nat.sqrt N) (hw : Nat.sqrt N + 2 ≤ w)
    (hr : Nat.sqrt N ≤ r) (k : ℕ) : w ≤ (newton N)^[k] r ↔ (back N)^[k] w ≤ r := by
  induction k generalizing r with
  | zero => rfl
  | succ k ih =>
      have hwk : ∀ k, Nat.sqrt N + 2 ≤ (back N)^[k] w := fun k => by
        induction k with
        | zero => exact hw
        | succ k ih =>
            rw [Function.iterate_succ_apply']
            exact ih.trans (lt_back N _).le
      rw [Function.iterate_succ_apply, ih (sqrt_le_newton N (hpos.trans_le hr)),
        Function.iterate_succ_apply', le_newton_iff_back hpos (hwk k) hr]

theorem back_le_back (hN : N' ≤ N) (hw : w ≤ w') : back N w ≤ back N' w' := by
  have hsq : w ^ 2 ≤ w' ^ 2 := Nat.pow_le_pow_left hw 2
  have hdiff : w ^ 2 - N - 1 ≤ w' ^ 2 - N' - 1 := by omega
  exact Nat.add_le_add hw (Nat.succ_le_succ (Nat.sqrt_le_sqrt hdiff))

/-- For a smaller argument, and from a larger value on, more starts are near enough. -/
theorem iterate_back_le (hN : N' ≤ N) (hw : w ≤ w') (k : ℕ) :
    (back N)^[k] w ≤ (back N')^[k] w' := by
  induction k with
  | zero => exact hw
  | succ k ih =>
      rw [Function.iterate_succ_apply', Function.iterate_succ_apply']
      exact back_le_back hN ih

/-! ## Arguments of other roots

The distance to the root on the way back is the larger the larger the root is, and the smaller the
argument of it. -/

variable {s s' : ℕ}

theorem back_shift (hsq : w ^ 2 + N' ≤ w' ^ 2 + N) (hw : w + s' ≤ w' + s) :
    back N w + s' ≤ back N' w' + s := by
  have hdiff : w ^ 2 - N - 1 ≤ w' ^ 2 - N' - 1 := by omega
  have hroot := Nat.sqrt_le_sqrt hdiff
  unfold back
  omega

/-- From the largest argument of a root to any argument of a larger one. -/
theorem iterate_back_shift_up (hs : s ≤ s') (hN : N' ≤ s' ^ 2 + 2 * s') (k : ℕ) :
    (back (s ^ 2 + 2 * s))^[k] (s + 2) + s' ≤ (back N')^[k] (s' + 2) + s
      ∧ s + 2 ≤ (back (s ^ 2 + 2 * s))^[k] (s + 2) := by
  induction k with
  | zero => exact ⟨by simp only [Function.iterate_zero, id]; omega, le_rfl⟩
  | succ k ih =>
      obtain ⟨hle, hge⟩ := ih
      rw [Function.iterate_succ_apply', Function.iterate_succ_apply']
      generalize (back (s ^ 2 + 2 * s))^[k] (s + 2) = w at *
      generalize (back N')^[k] (s' + 2) = w' at *
      refine ⟨back_shift ?_ hle, hge.trans (lt_back _ w).le⟩
      obtain ⟨d, rfl⟩ := Nat.exists_eq_add_of_le hge
      obtain ⟨e, rfl⟩ : ∃ e, w' = s' + 2 + d + e := Nat.exists_eq_add_of_le (by omega)
      nlinarith [Nat.mul_le_mul_left d hs, Nat.zero_le (e * (s' + 2 + d))]

/-- From any argument of a root to the least one of a larger root. -/
theorem iterate_back_shift_down (hs : s ≤ s') (hN : s ^ 2 ≤ N) (k : ℕ) :
    (back N)^[k] (s + 2) + s' ≤ (back (s' ^ 2))^[k] (s' + 2) + s
      ∧ s + 2 ≤ (back N)^[k] (s + 2) := by
  induction k with
  | zero => exact ⟨by simp only [Function.iterate_zero, id]; omega, le_rfl⟩
  | succ k ih =>
      obtain ⟨hle, hge⟩ := ih
      rw [Function.iterate_succ_apply', Function.iterate_succ_apply']
      generalize (back N)^[k] (s + 2) = w at *
      generalize (back (s' ^ 2))^[k] (s' + 2) = w' at *
      refine ⟨back_shift ?_ hle, hge.trans (lt_back _ w).le⟩
      obtain ⟨d, rfl⟩ := Nat.exists_eq_add_of_le hge
      obtain ⟨e, rfl⟩ : ∃ e, w' = s' + 2 + d + e := Nat.exists_eq_add_of_le (by omega)
      nlinarith [Nat.mul_le_mul_left d hs, Nat.zero_le (e * (s' + 2 + d))]

end SysInC.NewtonSqrt
