/-
The type `int` of C, of 32 bits: arithmetic that is undefined where it overflows, and the
conversions from and to the unsigned type, which are not.
-/
import Mathlib.Algebra.Order.Ring.Int
import Mathlib.Tactic.Common

set_option autoImplicit false

namespace SysInC.CInt

def INT_MAX : ℤ := 2147483647

def INT_MIN : ℤ := -2147483648

/-- The values of an `int`. -/
def IsInt (v : ℤ) : Prop := INT_MIN ≤ v ∧ v ≤ INT_MAX

instance : DecidablePred IsInt := fun _ => inferInstanceAs (Decidable (_ ∧ _))

/-- The result of an operation on `int`; `none` where it overflows. -/
def int (v : ℤ) : Option ℤ := if IsInt v then some v else none

/-- `(uint32_t)v` -/
def to_uint (v : ℤ) : ℕ := (v % 4294967296).toNat

/-- `(int)n` -/
def to_int (n : ℕ) : ℤ := Int.bmod n 4294967296

theorem isInt_iff (v : ℤ) : IsInt v ↔ -2147483648 ≤ v ∧ v ≤ 2147483647 := Iff.rfl

theorem int_of {v : ℤ} (h : IsInt v) : int v = some v := if_pos h

theorem int_eq_none {v : ℤ} (h : ¬IsInt v) : int v = none := if_neg h

theorem int_eq_some {v w : ℤ} : int v = some w ↔ IsInt v ∧ v = w := by
  unfold int
  split
  · next h => simp [h]
  · next h => simp [h]

theorem isInt_toInt (v : Int32) : IsInt v.toInt :=
  ⟨v.le_toInt, Int.le_of_lt_add_one v.toInt_lt⟩

theorem to_uint_of_nonneg {v : ℤ} (h : IsInt v) (h0 : 0 ≤ v) : to_uint v = v.toNat := by
  rw [isInt_iff] at h
  unfold to_uint
  omega

theorem to_uint_of_neg {v : ℤ} (h : IsInt v) (h0 : v < 0) :
    to_uint v = (v + 4294967296).toNat := by
  rw [isInt_iff] at h
  unfold to_uint
  omega

theorem to_int_to_uint {v : ℤ} (h : IsInt v) : to_int (to_uint v) = v := by
  rw [isInt_iff] at h
  unfold to_int to_uint Int.bmod
  dsimp only
  split
  · omega
  · omega

/-- The test `(uint32_t)v > size`. -/
theorem lt_to_uint_iff {v : ℤ} (h : IsInt v) {size : ℕ} (hsize : size < 2147483648) :
    to_uint v > size ↔ ¬(0 ≤ v ∧ v ≤ size) := by
  rcases lt_or_ge v 0 with hneg | hnonneg
  · rw [to_uint_of_neg h hneg]
    rw [isInt_iff] at h
    omega
  · rw [to_uint_of_nonneg h hnonneg]
    omega

end SysInC.CInt
