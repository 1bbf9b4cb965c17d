/-
Words of bits and streams of them, the most significant bit first: what a reader that takes a few
bits at a time from bytes goes by.

A window is the number that the next bits of a stream make. A reader may look at a window that is
longer than what it takes; what is behind the bits of a code word only adds to its low end.
-/
import Mathlib.Data.List.Induction
import Mathlib.Data.Stream.Init
import Mathlib.Tactic.Ring

set_option autoImplicit false

namespace SysInC.BitStream

/-! ## Words -/

/-- The number that a word writes. -/
def value (w : List Bool) : ℕ := w.foldl (fun n b => 2 * n + b.toNat) 0

/-- The low `n` bits of a number. -/
def bits : ℕ → ℕ → List Bool
  | 0, _ => []
  | n + 1, v => bits n (v / 2) ++ [decide (v % 2 = 1)]

@[simp] theorem bits_length (n v : ℕ) : (bits n v).length = n := by
  induction n generalizing v with
  | zero => rfl
  | succ n ih => rw [bits, List.length_append, ih, List.length_singleton]

theorem value_concat (w : List Bool) (b : Bool) : value (w ++ [b]) = 2 * value w + b.toNat := by
  rw [value, List.foldl_append]
  rfl

theorem value_append (v w : List Bool) : value (v ++ w) = value v * 2 ^ w.length + value w := by
  induction w using List.reverseRecOn with
  | nil =>
    rw [List.append_nil, List.length_nil, pow_zero, mul_one]
    rfl
  | append_singleton w b ih =>
    rw [← List.append_assoc, value_concat, ih, value_concat, List.length_append,
      List.length_singleton, pow_succ]
    ring

theorem value_lt (w : List Bool) : value w < 2 ^ w.length := by
  induction w using List.reverseRecOn with
  | nil => exact Nat.one_pos
  | append_singleton w b ih =>
    rw [value_concat, List.length_append, List.length_singleton, pow_succ]
    have hb : b.toNat ≤ 1 := b.toNat_le
    omega

theorem value_bits (n v : ℕ) : value (bits n v) = v % 2 ^ n := by
  induction n generalizing v with
  | zero =>
    rw [pow_zero, Nat.mod_one]
    rfl
  | succ n ih =>
    have hbit : (decide (v % 2 = 1)).toNat = v % 2 := by
      rcases Nat.mod_two_eq_zero_or_one v with h | h
      · rw [h]
        rfl
      · rw [h]
        rfl
    rw [bits, value_concat, ih, hbit, pow_succ, mul_comm (2 ^ n) 2, Nat.mod_mul, add_comm]

theorem value_bits_of_lt {n v : ℕ} (h : v < 2 ^ n) : value (bits n v) = v := by
  rw [value_bits, Nat.mod_eq_of_lt h]

/-- Words of one length with the same number are the same. -/
theorem value_inj {v w : List Bool} (hlen : v.length = w.length) (h : value v = value w) :
    v = w := by
  induction v using List.reverseRecOn generalizing w with
  | nil => exact (List.length_eq_zero_iff.mp hlen.symm).symm
  | append_singleton v b ih =>
    induction w using List.reverseRecOn with
    | nil => exact absurd hlen (by simp)
    | append_singleton w c _ =>
      rw [value_concat, value_concat] at h
      have hb : b.toNat ≤ 1 := b.toNat_le
      have hc : c.toNat ≤ 1 := c.toNat_le
      have hbit : b.toNat = c.toNat := by omega
      have hlast : b = c := by
        revert hbit
        cases b <;> cases c <;> decide
      have hfront : v = w := by
        apply ih
        · simpa using hlen
        · omega
      rw [hfront, hlast]

theorem bits_value (w : List Bool) : bits w.length (value w) = w :=
  value_inj (bits_length _ _) (value_bits_of_lt (value_lt w))

/-- The bits of a number that is put behind another. -/
theorem bits_add (m : ℕ) {n u : ℕ} (v : ℕ) (h : u < 2 ^ n) :
    bits (m + n) (v * 2 ^ n + u) = bits m v ++ bits n u := by
  apply value_inj
  · simp
  · have hlow : (v * 2 ^ n + u) % 2 ^ n = u := by rw [Nat.mul_add_mod', Nat.mod_eq_of_lt h]
    have hhigh : (v * 2 ^ n + u) / 2 ^ n = v := by
      rw [mul_comm, Nat.mul_add_div (Nat.two_pow_pos n), Nat.div_eq_of_lt h, add_zero]
    rw [value_append, value_bits, value_bits, value_bits_of_lt h, bits_length, pow_add,
      mul_comm (2 ^ m), Nat.mod_mul, hlow, hhigh]
    ring

theorem replicate_append_const {α : Type*} (n : ℕ) (a : α) :
    List.replicate n a ++ₛ Stream'.const a = Stream'.const a := by
  induction n with
  | zero => rfl
  | succ n ih => rw [List.replicate_succ, Stream'.cons_append_stream, ih, ← Stream'.const_eq]

/-! ## Windows -/

/-- The number that the next `n` bits make. -/
def window (s : Stream' Bool) (n : ℕ) : ℕ := value (s.take n)

theorem window_lt (s : Stream' Bool) (n : ℕ) : window s n < 2 ^ n := by
  have h := value_lt (s.take n)
  rwa [Stream'.length_take] at h

theorem window_add (s : Stream' Bool) (m n : ℕ) :
    window s (m + n) = window s m * 2 ^ n + window (s.drop m) n := by
  rw [window, Stream'.take_add, value_append, Stream'.length_take]
  rfl

theorem window_append (w : List Bool) (s : Stream' Bool) : window (w ++ₛ s) w.length = value w := by
  rw [window, Stream'.take_append_of_le_length _ _ _ le_rfl, List.take_length]

theorem window_bits {n v : ℕ} (h : v < 2 ^ n) (s : Stream' Bool) :
    window (bits n v ++ₛ s) n = v := by
  have hw := window_append (bits n v) s
  rwa [bits_length, value_bits_of_lt h] at hw

theorem drop_bits (n v : ℕ) (s : Stream' Bool) : (bits n v ++ₛ s).drop n = s := by
  have hd := Stream'.drop_append_stream (bits n v) s
  rwa [bits_length] at hd

end SysInC.BitStream
