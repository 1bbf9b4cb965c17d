/-
`sqrt_bitshift` of `test_os/kernel.c`: the square root of 32 bits, two bits of the argument at a
time.

With `bit` at `4 ^ k` the root that is found so far is `q`, of the argument without its lower
`2 * k + 2` bits; `res` holds `q * 4 ^ (k + 1)` and `n` what is left of the argument.
-/
import Mathlib.Algebra.Order.Ring.Nat
import Mathlib.Logic.Function.Iterate
import Mathlib.Tactic.Linarith
import Mathlib.Tactic.Ring

set_option autoImplicit false

namespace SysInC.KernelSqrt

/-! ## The source -/

structure state where
  n : UInt32
  res : UInt32
  bit : UInt32

theorem toNat_shift_one (x : UInt32) : (x >>> 1).toNat = x.toNat / 2 := by
  rw [UInt32.toNat_shiftRight]
  exact Nat.shiftRight_eq_div_pow _ 1

theorem toNat_shift_two (x : UInt32) : (x >>> 2).toNat = x.toNat / 4 := by
  rw [UInt32.toNat_shiftRight]
  exact Nat.shiftRight_eq_div_pow _ 2

theorem shift_lt {bit : UInt32} (h : bit ≠ 0) : (bit >>> 2).toNat < bit.toNat := by
  have hpos : bit.toNat ≠ 0 := fun heq => h (UInt32.toNat_inj.mp heq)
  rw [toNat_shift_two]
  exact Nat.div_lt_self (Nat.pos_of_ne_zero hpos) (by decide)

/-- `while (bit > n) bit >>= 2;` -/
def lower (n bit : UInt32) : UInt32 :=
  if n < bit then lower n (bit >>> 2) else bit
termination_by bit.toNat
decreasing_by
  refine shift_lt ?_
  rintro rfl
  exact absurd ‹n < 0› (UInt32.not_lt.mpr (UInt32.zero_le))

/-- A turn of the second loop. -/
def turn (s : state) : state :=
  if s.res + s.bit ≤ s.n then ⟨s.n - (s.res + s.bit), (s.res >>> 1) + s.bit, s.bit >>> 2⟩
  else ⟨s.n, s.res >>> 1, s.bit >>> 2⟩

theorem turn_bit (s : state) : (turn s).bit = s.bit >>> 2 := by
  unfold turn
  split <;> rfl

/-- `while (bit != 0)` -/
def loop (s : state) : state := if s.bit = 0 then s else loop (turn s)
termination_by s.bit.toNat
decreasing_by
  rw [turn_bit]
  exact shift_lt ‹_›

/-- `bit = 1U << 30` -/
def start (n : UInt32) : state := ⟨n, 0, lower n ((1 : UInt32) <<< 30)⟩

def sqrt_bitshift (n : UInt32) : UInt32 := if n = 0 then 0 else (loop (start n)).res

/-- The sums of a turn fit in 32 bits, and what is subtracted is not more than `n`. -/
structure NoWrap (s : state) : Prop where
  test : s.res.toNat + s.bit.toNat < 2 ^ 32
  root : (s.res >>> 1).toNat + s.bit.toNat < 2 ^ 32
  rest : s.res + s.bit ≤ s.n → s.res.toNat + s.bit.toNat ≤ s.n.toNat

/-! ## A turn -/

/-- The root that is found of the argument `N` without its last `2 * k` bits. -/
structure Inv (N k q : ℕ) (s : state) : Prop where
  res_eq : s.res.toNat = q * 4 ^ k
  n_eq : s.n.toNat + q ^ 2 * 4 ^ k = N
  lt : N < (q + 1) ^ 2 * 4 ^ k
  bit_eq : s.bit.toNat = 4 ^ k / 4

variable {N k q : ℕ} {s : state}

theorem four_pow_succ_div (k : ℕ) : 4 ^ (k + 1) / 4 = 4 ^ k := by
  rw [pow_succ]
  exact Nat.mul_div_cancel _ (by decide)

/-- The partial roots are small. -/
theorem room (hN : N < 2 ^ 32) (hk : k ≤ 15) (hq : q ^ 2 * 4 ^ (k + 1) ≤ N) :
    (4 * q + 1) * 4 ^ k < 2 ^ 32 := by
  obtain ⟨m, hm⟩ := Nat.exists_eq_add_of_le hk
  have hfour : 4 ^ k = 2 ^ k * 2 ^ k := by
    rw [← mul_pow]
    rfl
  have hsplit : 2 ^ k * 2 ^ m = 2 ^ 15 := by rw [← pow_add, ← hm]
  have hpos : 0 < 2 ^ k := Nat.two_pow_pos k
  have hroot : q < 2 ^ m := by
    have hsquare : (q * (2 * 2 ^ k)) ^ 2 < (2 ^ 16) ^ 2 := by
      calc (q * (2 * 2 ^ k)) ^ 2 = q ^ 2 * 4 ^ (k + 1) := by rw [pow_succ 4 k, hfour]; ring
        _ ≤ N := hq
        _ < (2 ^ 16) ^ 2 := hN
    have hlt : q * (2 * 2 ^ k) < 2 ^ m * (2 * 2 ^ k) := by
      calc q * (2 * 2 ^ k) < 2 ^ 16 := lt_of_pow_lt_pow_left₀ 2 (Nat.zero_le _) hsquare
        _ = 2 * (2 ^ k * 2 ^ m) := by rw [hsplit]; rfl
        _ = 2 ^ m * (2 * 2 ^ k) := by ring
    exact Nat.lt_of_mul_lt_mul_right hlt
  have hle : 2 ^ k ≤ 2 ^ 15 := Nat.pow_le_pow_right (by decide) hk
  calc (4 * q + 1) * 4 ^ k < 4 * 2 ^ m * 4 ^ k :=
        Nat.mul_lt_mul_of_pos_right (by omega) (Nat.pow_pos (by decide))
    _ = 4 * (2 ^ k * 2 ^ m) * 2 ^ k := by rw [hfour]; ring
    _ ≤ 4 * (2 ^ k * 2 ^ m) * 2 ^ 15 := Nat.mul_le_mul_left _ hle
    _ = 2 ^ 32 := by rw [hsplit]; rfl

/-- No sum of a turn wraps. -/
theorem Inv.noWrap (h : Inv N (k + 1) q s) (hN : N < 2 ^ 32) (hk : k ≤ 15) : NoWrap s := by
  obtain ⟨hres, hn, hlt, hbit⟩ := h
  have hroom := room hN hk (hn ▸ Nat.le_add_left (q ^ 2 * 4 ^ (k + 1)) s.n.toNat)
  have htest : s.res.toNat + s.bit.toNat = (4 * q + 1) * 4 ^ k := by
    rw [hres, hbit, four_pow_succ_div]
    ring
  have hsum : s.res.toNat + s.bit.toNat < 2 ^ 32 := by rwa [htest]
  refine ⟨hsum, ?_, fun hle => ?_⟩
  · rw [toNat_shift_one]
    omega
  · rw [UInt32.le_iff_toNat_le, UInt32.toNat_add, Nat.mod_eq_of_lt hsum] at hle
    exact hle

/-- A turn finds one more bit of the root. -/
theorem Inv.turn (h : Inv N (k + 1) q s) (hN : N < 2 ^ 32) (hk : k ≤ 15) :
    ∃ q', Inv N k q' (turn s) := by
  obtain ⟨htest, hroot, -⟩ := h.noWrap hN hk
  obtain ⟨hres, hn, hlt, hbit⟩ := h
  rw [four_pow_succ_div] at hbit
  have hsum : (s.res + s.bit).toNat = (4 * q + 1) * 4 ^ k := by
    rw [UInt32.toNat_add, Nat.mod_eq_of_lt htest, hres, hbit]
    ring
  have hhalf : (s.res >>> 1).toNat = 2 * q * 4 ^ k := by
    rw [toNat_shift_one, hres, pow_succ, show q * (4 ^ k * 4) = 2 * q * 4 ^ k * 2 by ring]
    exact Nat.mul_div_cancel _ Nat.two_pos
  have hlower : (s.bit >>> 2).toNat = 4 ^ k / 4 := by rw [toNat_shift_two, hbit]
  rw [pow_succ 4 k] at hn hlt
  unfold KernelSqrt.turn
  by_cases hle : s.res + s.bit ≤ s.n
  · have hle' : (s.res + s.bit).toNat ≤ s.n.toNat := UInt32.le_iff_toNat_le.mp hle
    rw [if_pos hle]
    refine ⟨2 * q + 1, ?_, ?_, ?_, hlower⟩
    · rw [UInt32.toNat_add, Nat.mod_eq_of_lt hroot, hhalf, hbit]
      ring
    · rw [UInt32.toNat_sub_of_le _ _ hle, hsum]
      rw [hsum] at hle'
      zify [hle'] at hn ⊢
      linarith
    · linarith
  · have hlt' : s.n.toNat < (s.res + s.bit).toNat := UInt32.not_le.mp hle
    rw [if_neg hle]
    rw [hsum] at hlt'
    refine ⟨2 * q, hhalf, ?_, ?_, hlower⟩
    · linarith
    · linarith

/-! ## The loops -/

/-- The first loop finds the highest digit. -/
theorem lower_eq {n : UInt32} (hn : n ≠ 0) (bit : UInt32) (hbit : bit.toNat = 4 ^ k)
    (hlt : n.toNat < 4 ^ (k + 1)) :
    ∃ j ≤ k, (lower n bit).toNat = 4 ^ j ∧ n.toNat < 4 ^ (j + 1) := by
  induction k generalizing bit with
  | zero =>
      have hpos : n.toNat ≠ 0 := fun heq => hn (UInt32.toNat_inj.mp heq)
      have hle : ¬ n < bit := by
        rw [UInt32.lt_iff_toNat_lt, hbit]
        omega
      rw [lower, if_neg hle]
      exact ⟨0, le_rfl, hbit, hlt⟩
  | succ k ih =>
      rw [lower]
      by_cases hlt' : n < bit
      · rw [if_pos hlt']
        have hshift : (bit >>> 2).toNat = 4 ^ k := by
          rw [toNat_shift_two, hbit, four_pow_succ_div]
        have hless : n.toNat < 4 ^ (k + 1) := by
          rw [← hbit]
          exact UInt32.lt_iff_toNat_lt.mp hlt'
        obtain ⟨j, hj, hlower⟩ := ih _ hshift hless
        exact ⟨j, Nat.le_succ_of_le hj, hlower⟩
      · rw [if_neg hlt']
        exact ⟨k + 1, le_rfl, hbit, hlt⟩

theorem start_inv {n : UInt32} (hn : n ≠ 0) : ∃ k ≤ 16, Inv n.toNat k 0 (start n) := by
  obtain ⟨j, hj, hbit, hlt⟩ := lower_eq (k := 15) hn ((1 : UInt32) <<< 30) (by decide)
    n.toNat_lt
  refine ⟨j + 1, by omega, by simp [start], by simp [start], by simpa using hlt, ?_⟩
  rw [four_pow_succ_div]
  exact hbit

theorem Inv.bit_ne_zero (h : Inv N (k + 1) q s) : s.bit ≠ 0 := by
  intro hzero
  have hbit := h.bit_eq
  rw [four_pow_succ_div, hzero] at hbit
  exact absurd hbit.symm (Nat.pow_pos (by decide)).ne'

theorem Inv.bit_eq_zero (h : Inv N 0 q s) : s.bit = 0 := UInt32.toNat_inj.mp h.bit_eq

/-- The second loop finds the root. -/
theorem Inv.loop (h : Inv N k q s) (hN : N < 2 ^ 32) (hk : k ≤ 16) :
    ∃ q', Inv N 0 q' (loop s) := by
  induction k generalizing q s with
  | zero =>
      rw [KernelSqrt.loop, if_pos h.bit_eq_zero]
      exact ⟨q, h⟩
  | succ k ih =>
      obtain ⟨q', hturn⟩ := h.turn hN (by omega)
      rw [KernelSqrt.loop, if_neg h.bit_ne_zero]
      exact ih hturn (by omega)

/-- In none of its turns a sum wraps. -/
theorem Inv.turns (h : Inv N k q s) (hN : N < 2 ^ 32) (hk : k ≤ 16) {j : ℕ}
    (hj : ∀ i ≤ j, (KernelSqrt.turn^[i] s).bit ≠ 0) : NoWrap (KernelSqrt.turn^[j] s) := by
  induction k generalizing q s j with
  | zero => exact absurd h.bit_eq_zero (hj 0 (Nat.zero_le j))
  | succ k ih =>
      cases j with
      | zero => exact h.noWrap hN (by omega)
      | succ j =>
          obtain ⟨q', hturn⟩ := h.turn hN (by omega)
          exact ih hturn (by omega) fun i hi => hj (i + 1) (by omega)

/-! ## The root -/

/-- The result is the greatest root, and the sums of all turns fit in 32 bits. -/
theorem sqrt_bitshift_spec (n : UInt32) :
    (sqrt_bitshift n).toNat ^ 2 ≤ n.toNat
      ∧ (∀ r : ℕ, r ^ 2 ≤ n.toNat → r ≤ (sqrt_bitshift n).toNat)
      ∧ ∀ j, (∀ i ≤ j, (turn^[i] (start n)).bit ≠ 0) → n ≠ 0 → NoWrap (turn^[j] (start n)) := by
  by_cases hn : n = 0
  · subst hn
    refine ⟨by decide, fun r hr => ?_, fun _ _ hne => absurd rfl hne⟩
    have hzero : r ^ 2 = 0 := Nat.le_zero.mp hr
    simp [pow_eq_zero_iff two_ne_zero |>.mp hzero]
  · obtain ⟨k, hk, hstart⟩ := start_inv hn
    obtain ⟨q, hres, hrest, hlt, -⟩ := hstart.loop n.toNat_lt hk
    have hroot : (sqrt_bitshift n).toNat = q := by
      rw [sqrt_bitshift, if_neg hn, hres, pow_zero, mul_one]
    rw [pow_zero, mul_one] at hrest hlt
    refine ⟨by rw [hroot]; omega, fun r hr => ?_, fun j hj _ => hstart.turns n.toNat_lt hk hj⟩
    rw [hroot]
    exact Nat.lt_succ_iff.mp (lt_of_pow_lt_pow_left₀ 2 (Nat.zero_le _) (hr.trans_lt hlt))

end SysInC.KernelSqrt
