/-
Fixed-width fields of packed records: numbers as little-endian bytes, one behind the other.

A record is written as the concatenation of its fields and read back field by field: a field is
the one in front (`le_field_head`) of what stands behind others (`le_field_skip`).
-/
import Mathlib.Data.List.TakeDrop
import Mathlib.Tactic.Ring

set_option autoImplicit false

namespace SysInC

/-- The last `k` bytes of `n`, the lowest first. -/
def le_bytes : ℕ → ℕ → List UInt8
  | 0, _ => []
  | k + 1, n => UInt8.ofNat (n % 256) :: le_bytes k (n / 256)

/-- The number that the bytes are. -/
def le_nat : List UInt8 → ℕ
  | [] => 0
  | b :: bs => b.toNat + 256 * le_nat bs

/-- The field of `k` bytes at the offset. -/
def le_field (record : List UInt8) (offset k : ℕ) : ℕ := le_nat ((record.drop offset).take k)

@[simp] theorem le_bytes_length (k n : ℕ) : (le_bytes k n).length = k := by
  induction k generalizing n with
  | zero => rfl
  | succ k ih => rw [le_bytes, List.length_cons, ih]

theorem le_nat_le_bytes {k n : ℕ} (h : n < 256 ^ k) : le_nat (le_bytes k n) = n := by
  induction k generalizing n with
  | zero =>
      rw [pow_zero, Nat.lt_one_iff] at h
      rw [h]
      rfl
  | succ k ih =>
      have hrest : n / 256 < 256 ^ k := by
        apply Nat.div_lt_of_lt_mul
        rwa [pow_succ, Nat.mul_comm] at h
      have hlow : (UInt8.ofNat (n % 256)).toNat = n % 256 := by
        rw [UInt8.toNat_ofNat']
        omega
      rw [le_bytes, le_nat, ih hrest, hlow]
      omega

/-- The field in front. -/
theorem le_field_head {k n : ℕ} (h : n < 256 ^ k) (rest : List UInt8) :
    le_field (le_bytes k n ++ rest) 0 k = n := by
  rw [le_field, List.drop_zero, List.take_left' (le_bytes_length k n), le_nat_le_bytes h]

/-- A field behind others. -/
theorem le_field_skip {m offset : ℕ} {pre : List UInt8} (hpre : pre.length = m)
    (h : m ≤ offset) (rest : List UInt8) (k : ℕ) :
    le_field (pre ++ rest) offset k = le_field rest (offset - m) k := by
  have hoffset : offset = pre.length + (offset - m) := by omega
  rw [le_field, hoffset, ← List.drop_drop, List.drop_left, ← hpre, Nat.add_sub_cancel_left]
  rfl

end SysInC
