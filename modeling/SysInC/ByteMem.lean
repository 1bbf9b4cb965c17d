/-
A **byte-addressed memory** with little-endian loads and stores of any width.

Addresses are natural numbers and the memory is total, so a program that reads
through a stray pointer reads something. Two facts about a store carry every proof over
this memory: it is read back at its own address (`load_store_self`), and it is
invisible to every load from a range it does not meet (`load_store_of_apart`).
Everything said about a whole operation goes through `load_congr`: a load only depends
on the bytes it covers.
-/
import Mathlib.Logic.Function.Basic
import Mathlib.Data.Nat.Bitwise
import Mathlib.Tactic.Ring

set_option autoImplicit false

namespace SysInC.ByteMem

/-- A memory: one byte at every address. -/
abbrev Mem := ℕ → UInt8

/-- The little-endian word of `n` bytes at `a`. -/
def load (m : Mem) (a : ℕ) : ℕ → ℕ
  | 0 => 0
  | n + 1 => (m a).toNat + 256 * load m (a + 1) n

/-- Write the low `n` bytes of `v` at `a`. -/
def store (m : Mem) (a : ℕ) : ℕ → ℕ → Mem
  | 0, _ => m
  | n + 1, v => store (Function.update m a (UInt8.ofNat v)) (a + 1) n (v / 256)

/-- The ranges of `n` bytes at `a` and of `k` bytes at `b` do not meet. -/
def Apart (a n b k : ℕ) : Prop := a + n ≤ b ∨ b + k ≤ a

theorem load_congr (m m' : Mem) (a n : ℕ) (h : ∀ i, a ≤ i → i < a + n → m i = m' i) :
    load m a n = load m' a n := by
  induction n generalizing a with
  | zero => rfl
  | succ n ih =>
      rw [load, load, h a le_rfl (by omega), ih (a + 1)]
      intro i h1 h2
      exact h i (by omega) (by omega)

/-- A store leaves every byte outside its range alone. -/
theorem store_of_not_mem (m : Mem) (a n v i : ℕ) (h : i < a ∨ a + n ≤ i) :
    store m a n v i = m i := by
  induction n generalizing m a v with
  | zero => rfl
  | succ n ih => rw [store, ih _ _ _ (by omega), Function.update_of_ne (by omega)]

theorem load_store_of_apart (m : Mem) (a n v b k : ℕ) (h : Apart a n b k) :
    load (store m a n v) b k = load m b k := by
  rw [Apart] at h
  refine load_congr _ _ _ _ ?_
  intro i h1 h2
  exact store_of_not_mem m a n v i (by omega)

/-- What was stored is read back, up to the width of the store. -/
theorem load_store_self (m : Mem) (a n v : ℕ) : load (store m a n v) a n = v % 256 ^ n := by
  induction n generalizing m a v with
  | zero => rw [load, pow_zero, Nat.mod_one]
  | succ n ih =>
      have hfirst : (store (Function.update m a (UInt8.ofNat v)) (a + 1) n (v / 256) a).toNat
          = v % 256 := by
        rw [store_of_not_mem _ _ _ _ _ (by omega), Function.update_self, UInt8.toNat_ofNat']
      rw [load, store, hfirst, ih, pow_succ, Nat.mul_comm (256 ^ n) 256, Nat.mod_mul]

/-- A stored word that fits is read back as it is. -/
theorem load_store_of_lt (m : Mem) (a n v : ℕ) (h : v < 256 ^ n) :
    load (store m a n v) a n = v := by
  rw [load_store_self, Nat.mod_eq_of_lt h]

/-! ## Alignment masks

`x & ~(2^k - 1)` in a word of `n` bits, where the mask is `2^n - 2^k`. -/

/-- Masking the low `k` bits off rounds down to a multiple of `2 ^ k`. -/
theorem and_mask_eq (n k x : ℕ) (hx : x < 2 ^ n) (hk : k ≤ n) :
    x &&& (2 ^ n - 2 ^ k) = x / 2 ^ k * 2 ^ k := by
  have hmask : 2 ^ n - 2 ^ k = 2 ^ n - (2 ^ k - 1 + 1) := by
    rw [Nat.sub_add_cancel Nat.one_le_two_pow]
  have hlt : 2 ^ k - 1 < 2 ^ n :=
    lt_of_lt_of_le (Nat.sub_lt (Nat.two_pow_pos k) Nat.one_pos)
      (Nat.pow_le_pow_right (by omega) hk)
  apply Nat.eq_of_testBit_eq
  intro i
  rw [Nat.testBit_and, hmask, Nat.testBit_two_pow_sub_succ hlt, Nat.testBit_two_pow_sub_one,
    ← Nat.shiftLeft_eq, ← Nat.shiftRight_eq_div_pow, Nat.testBit_shiftLeft,
    Nat.testBit_shiftRight]
  by_cases hik : i < k
  · rw [decide_eq_true hik, decide_eq_false (Nat.not_le.mpr hik)]
    simp
  · rw [decide_eq_false hik, decide_eq_true (Nat.le_of_not_lt hik),
      Nat.add_sub_cancel' (Nat.le_of_not_lt hik)]
    by_cases hin : i < n
    · rw [decide_eq_true hin]
      simp
    · rw [Nat.testBit_lt_two_pow (lt_of_lt_of_le hx (Nat.pow_le_pow_right (by omega)
        (Nat.le_of_not_lt hin)))]
      simp

end SysInC.ByteMem
