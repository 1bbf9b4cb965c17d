/-
`fp32_sqrt` of `freestanding/kfixed.c`: eight turns of Newton's iteration, from the argument on.

The first turn comes to `(a + 65536) / 2`, which is above the root, and the turns behind it are
those of `newton`. The root of a small or a large argument is so far away from there that seven
turns do not get to it.
-/
import SysInC.NewtonSqrt

set_option autoImplicit false

namespace SysInC.Kfixed

open NewtonSqrt

/-! ## The source -/

def FP32_SHIFT : ℕ := 16

/-- The quotient of 64 bits, cut off to 32. -/
def fp32_div (a b : ℤ) : ℤ := if b = 0 then 0 else ((a * 2 ^ FP32_SHIFT).tdiv b).bmod (2 ^ 32)

/-- A sum of `int32_t`; `none` is an overflow. -/
def add32 (x y : ℤ) : Option ℤ := if -2 ^ 31 ≤ x + y ∧ x + y < 2 ^ 31 then some (x + y) else none

def turn (a root : ℤ) : Option ℤ :=
  (add32 root (fp32_div a root)).map fun sum : ℤ => sum >>> (1 : ℕ)

/-- The loop, with `n` turns to go. -/
def loop (a : ℤ) : ℕ → ℤ → Option ℤ
  | 0, root => some root
  | n + 1, root => (turn a root).bind (loop a n)

def fp32_sqrt (a : ℤ) : Option ℤ := if a ≤ 0 then some 0 else loop a 8 a

/-! ## The claim and its condition -/

/-- The root of 16.16, rounded down. -/
def exact_sqrt (a : ℤ) : ℕ := Nat.sqrt (a.toNat * 65536)

/-- No sum overflows, and the result is within one unit in the last place. -/
def Accurate (a : ℤ) : Prop := ∃ r, fp32_sqrt a = some r ∧ (r - exact_sqrt a).natAbs ≤ 1

/-- Where the first turn comes to, as `a / a` is one. -/
def first_start (n : ℕ) : ℕ := (n + 65536) / 2

/-- The first sum fits, and half of it is one of the starts from which seven turns get below two
units above the root. -/
def InReach (n : ℕ) : Prop :=
  n + 65536 < 2 ^ 31
    ∧ first_start n < (back (n * 65536))^[7] (Nat.sqrt (n * 65536) + 2)

/-! ## The loop in numbers -/

variable {n r : ℕ}

theorem shiftRight_one (x : ℕ) : (x : ℤ) >>> (1 : ℕ) = ((x / 2 : ℕ) : ℤ) := by
  rw [Int.shiftRight_eq_div_pow]
  rfl

theorem fp32_div_eq (n : ℕ) (hr : 0 < r) (hdiv : n * 65536 / r < 2 ^ 31) :
    fp32_div n r = ((n * 65536 / r : ℕ) : ℤ) := by
  have hne : (r : ℤ) ≠ 0 := Int.natCast_ne_zero.mpr hr.ne'
  have hquot : ((n : ℤ) * 2 ^ FP32_SHIFT).tdiv r = ((n * 65536 / r : ℕ) : ℤ) := rfl
  rw [fp32_div, if_neg hne, hquot]
  generalize n * 65536 / r = q at hdiv ⊢
  exact Int.bmod_eq_of_le (by omega) (by omega)

theorem turn_eq (n : ℕ) (hr : 0 < r) (hsum : r + n * 65536 / r < 2 ^ 31) :
    turn n r = some ((newton (n * 65536) r : ℕ) : ℤ) := by
  have hrange : -2 ^ 31 ≤ (r : ℤ) + ((n * 65536 / r : ℕ) : ℤ)
      ∧ (r : ℤ) + ((n * 65536 / r : ℕ) : ℤ) < 2 ^ 31 := by
    generalize n * 65536 / r = q at hsum ⊢
    omega
  rw [turn, fp32_div_eq n hr (lt_of_le_of_lt (Nat.le_add_left _ _) hsum), add32, if_pos hrange,
    Option.map_some, ← Int.natCast_add, shiftRight_one, newton]

/-- The root of a positive argument: at least 256, and of 24 bits. -/
theorem sqrt_bounds (hn : 0 < n) (hlt : n < 2 ^ 31) :
    256 ≤ Nat.sqrt (n * 65536) ∧ Nat.sqrt (n * 65536) < 2 ^ 24 := by
  constructor
  · rw [Nat.le_sqrt']
    omega
  · rw [Nat.sqrt_lt']
    omega

theorem loop_eq (hn : 0 < n) (hlt : n < 2 ^ 31) (k : ℕ) (hr : Nat.sqrt (n * 65536) ≤ r)
    (hr' : r ≤ 2 ^ 30) : loop n k r = some (((newton (n * 65536))^[k] r : ℕ) : ℤ) := by
  obtain ⟨hge, hle⟩ := sqrt_bounds hn hlt
  have hpos : 0 < Nat.sqrt (n * 65536) := lt_of_lt_of_le (by decide) hge
  have hroom : Nat.sqrt (n * 65536) + 2 ≤ 2 ^ 30 := by omega
  induction k generalizing r with
  | zero => rfl
  | succ k ih =>
      obtain ⟨hquot, hnext⟩ := newton_le hpos hr hr' hroom
      have hsum : r + n * 65536 / r < 2 ^ 31 := by omega
      rw [loop, turn_eq n (hpos.trans_le hr) hsum, Option.bind_some, Function.iterate_succ_apply]
      exact ih (sqrt_le_newton _ (hpos.trans_le hr)) hnext

theorem newton_self (hn : 0 < n) : newton (n * 65536) n = first_start n := by
  rw [newton, Nat.mul_div_cancel_left 65536 hn, first_start]

theorem sqrt_le_first_start (hn : 0 < n) : Nat.sqrt (n * 65536) ≤ first_start n := by
  rw [← newton_self hn]
  exact sqrt_le_newton (n * 65536) hn

theorem fp32_sqrt_eq (hn : 0 < n) (hlt : n < 2 ^ 31) :
    fp32_sqrt n = if n + 65536 < 2 ^ 31
      then some (((newton (n * 65536))^[7] (first_start n) : ℕ) : ℤ) else none := by
  have hpos : ¬(n : ℤ) ≤ 0 := by omega
  have hquot : n * 65536 / n = 65536 := Nat.mul_div_cancel_left 65536 hn
  rw [fp32_sqrt, if_neg hpos, loop]
  by_cases hsum : n + 65536 < 2 ^ 31
  · have hroom : first_start n ≤ 2 ^ 30 := by
      unfold first_start
      omega
    rw [if_pos hsum, turn_eq n hn (by rwa [hquot]), Option.bind_some, newton_self hn]
    exact loop_eq hn hlt 7 (sqrt_le_first_start hn) hroom
  · have hover :
        ¬(-2 ^ 31 ≤ (n : ℤ) + ((65536 : ℕ) : ℤ) ∧ (n : ℤ) + ((65536 : ℕ) : ℤ) < 2 ^ 31) := by
      omega
    rw [if_neg hsum, turn, fp32_div_eq n hn (by rw [hquot]; decide), hquot, add32, if_neg hover]
    rfl

/-- **Eight turns are enough** exactly for the arguments in reach. -/
theorem accurate_iff_inReach (hn : 0 < n) (hlt : n < 2 ^ 31) : Accurate n ↔ InReach n := by
  have hpos : 0 < Nat.sqrt (n * 65536) := lt_of_lt_of_le (by decide) (sqrt_bounds hn hlt).1
  have hroot : exact_sqrt n = Nat.sqrt (n * 65536) := rfl
  have hlast : ∀ k, Nat.sqrt (n * 65536) ≤ (newton (n * 65536))^[k] (first_start n) := by
    intro k
    induction k with
    | zero => exact sqrt_le_first_start hn
    | succ k ih =>
        rw [Function.iterate_succ_apply']
        exact sqrt_le_newton _ (hpos.trans_le ih)
  have hlast := hlast 7
  have hback := le_iterate_newton_iff hpos le_rfl (sqrt_le_first_start hn) 7
  unfold Accurate InReach
  rw [fp32_sqrt_eq hn hlt, hroot, ← not_le (a := (back (n * 65536))^[7] _), ← hback]
  generalize (newton (n * 65536))^[7] (first_start n) = r at hlast ⊢
  by_cases hsum : n + 65536 < 2 ^ 31
  · rw [if_pos hsum]
    constructor
    · rintro ⟨r', hr', hnear⟩
      obtain rfl := Option.some.inj hr'
      exact ⟨hsum, by omega⟩
    · rintro ⟨-, hnear⟩
      exact ⟨r, rfl, by omega⟩
  · rw [if_neg hsum]
    refine iff_of_false ?_ fun h => hsum h.1
    rintro ⟨r', hr', -⟩
    cases hr'

end SysInC.Kfixed
