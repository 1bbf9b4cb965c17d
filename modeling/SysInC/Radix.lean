/-
Numbers as digits of a fixed count, the highest first, and groups of digits of one base written
in another.

Where `base ^ k = base' ^ g`, a group of `g` digits of one base is a group of `k` digits of the
other (`regroup_regroup`). A group that is too short is filled up with zeros, and as many digits
as it has to spare are zeros in the other base too (`regroup_short`).
-/
import Mathlib.Data.List.Basic
import Mathlib.Data.List.Induction
import Mathlib.Algebra.Order.Ring.Nat
import Mathlib.Tactic.Ring
import Mathlib.Tactic.Common

set_option autoImplicit false

namespace SysInC.Radix

/-- The last `k` digits of `n`. -/
def to_digits (base : ℕ) : ℕ → ℕ → List ℕ
  | 0, _ => []
  | k + 1, n => to_digits base k (n / base) ++ [n % base]

/-- The number that the digits are. -/
def of_digits (base : ℕ) (ds : List ℕ) : ℕ := ds.foldl (fun n d => n * base + d) 0

/-- The digits of the number that `ds` is in `base`, `k` of them in `base'`. -/
def regroup (base base' k : ℕ) (ds : List ℕ) : List ℕ := to_digits base' k (of_digits base ds)

variable {base base' k g : ℕ}

@[simp] theorem to_digits_length (k n : ℕ) : (to_digits base k n).length = k := by
  induction k generalizing n with
  | zero => rfl
  | succ k ih => rw [to_digits, List.length_append, ih, List.length_singleton]

theorem of_digits_concat (ds : List ℕ) (d : ℕ) :
    of_digits base (ds ++ [d]) = of_digits base ds * base + d := by
  rw [of_digits, List.foldl_append]
  rfl

theorem to_digits_lt (hbase : 0 < base) {n d : ℕ} (h : d ∈ to_digits base k n) : d < base := by
  induction k generalizing n with
  | zero => exact absurd h List.not_mem_nil
  | succ k ih =>
      rw [to_digits, List.mem_append, List.mem_singleton] at h
      rcases h with hrest | rfl
      · exact ih hrest
      · exact Nat.mod_lt n hbase

theorem of_digits_to_digits {n : ℕ} (h : n < base ^ k) :
    of_digits base (to_digits base k n) = n := by
  induction k generalizing n with
  | zero =>
      rw [pow_zero, Nat.lt_one_iff] at h
      rw [h]
      rfl
  | succ k ih =>
      have hrest : n / base < base ^ k := by
        apply Nat.div_lt_of_lt_mul
        rwa [pow_succ, Nat.mul_comm] at h
      rw [to_digits, of_digits_concat, ih hrest]
      exact Nat.div_add_mod' n base

theorem of_digits_lt {ds : List ℕ} (h : ∀ d ∈ ds, d < base) :
    of_digits base ds < base ^ ds.length := by
  induction ds using List.reverseRecOn with
  | nil => exact Nat.one_pos
  | append_singleton ds d ih =>
      have hd : d < base := h d (List.mem_append_right _ List.mem_cons_self)
      have hrest := ih fun x hx => h x (List.mem_append_left _ hx)
      rw [of_digits_concat, List.length_append, List.length_singleton, pow_succ]
      calc of_digits base ds * base + d < of_digits base ds * base + base := by omega
        _ = (of_digits base ds + 1) * base := by ring
        _ ≤ base ^ ds.length * base := Nat.mul_le_mul_right base hrest

theorem to_digits_of_digits {ds : List ℕ} (h : ∀ d ∈ ds, d < base) :
    to_digits base ds.length (of_digits base ds) = ds := by
  induction ds using List.reverseRecOn with
  | nil => rfl
  | append_singleton ds d ih =>
      have hd : d < base := h d (List.mem_append_right _ List.mem_cons_self)
      have hrest := ih fun x hx => h x (List.mem_append_left _ hx)
      have hpos : 0 < base := Nat.zero_lt_of_lt hd
      rw [of_digits_concat, List.length_append, List.length_singleton, to_digits,
        Nat.mul_add_mod_of_lt hd, Nat.mul_comm, Nat.mul_add_div hpos, Nat.div_eq_of_lt hd,
        Nat.add_zero, hrest]

/-! ## Bases that are powers of two -/

/-- A digit put behind the others with a shift. -/
theorem shiftLeft_or (n : ℕ) {w d : ℕ} (h : d < 2 ^ w) : (n <<< w) ||| d = n * 2 ^ w + d := by
  rw [← Nat.shiftLeft_add_eq_or_of_lt h, Nat.shiftLeft_eq]

theorem foldl_shiftLeft_or {w : ℕ} (ds : List ℕ) (h : ∀ d ∈ ds, d < 2 ^ w) :
    ds.foldl (fun n d => (n <<< w) ||| d) 0 = of_digits (2 ^ w) ds := by
  induction ds using List.reverseRecOn with
  | nil => rfl
  | append_singleton ds d ih =>
      have hrest := ih fun x hx => h x (List.mem_append_left _ hx)
      rw [List.foldl_append, List.foldl_cons, List.foldl_nil, hrest, of_digits_concat,
        shiftLeft_or _ (h d (List.mem_append_right _ List.mem_cons_self))]

/-- The digits, taken out with shifts and masks. -/
theorem to_digits_eq_map (w k n : ℕ) :
    to_digits (2 ^ w) k n
      = (List.range k).reverse.map fun i => (n >>> (i * w)) &&& (2 ^ w - 1) := by
  induction k generalizing n with
  | zero => rfl
  | succ k ih =>
      rw [to_digits, ih, List.range_succ_eq_map, List.reverse_cons, List.map_append,
        ← List.map_reverse, List.map_map, List.map_singleton, Nat.zero_mul, Nat.shiftRight_zero,
        Nat.and_two_pow_sub_one_eq_mod]
      congr 1
      apply List.map_congr_left
      intro i _
      rw [Function.comp_apply, ← Nat.shiftRight_eq_div_pow, ← Nat.shiftRight_add, Nat.succ_mul,
        Nat.add_comm w]

/-! ## Zeros at the end -/

theorem of_digits_zeros (ds : List ℕ) (z : ℕ) :
    of_digits base (ds ++ List.replicate z 0) = of_digits base ds * base ^ z := by
  induction z with
  | zero => rw [List.replicate_zero, List.append_nil, pow_zero, Nat.mul_one]
  | succ z ih =>
      rw [List.replicate_succ', ← List.append_assoc, of_digits_concat, ih, Nat.add_zero, pow_succ,
        Nat.mul_assoc]

theorem to_digits_zeros (hbase : 0 < base) (k n z : ℕ) :
    to_digits base (k + z) (n * base ^ z) = to_digits base k n ++ List.replicate z 0 := by
  induction z with
  | zero => rw [pow_zero, Nat.mul_one, List.replicate_zero, List.append_nil, Nat.add_zero]
  | succ z ih =>
      rw [← Nat.add_assoc, to_digits, pow_succ, ← Nat.mul_assoc, Nat.mul_div_cancel _ hbase,
        Nat.mul_mod_left, ih, List.replicate_succ', List.append_assoc]

/-! ## Regrouping -/

theorem regroup_regroup (hpow : base ^ g = base' ^ k) {ds : List ℕ} (hlen : ds.length = g)
    (h : ∀ d ∈ ds, d < base) : regroup base' base g (regroup base base' k ds) = ds := by
  have hlt := of_digits_lt h
  rw [hlen, hpow] at hlt
  rw [regroup, regroup, of_digits_to_digits hlt, ← hlen, to_digits_of_digits h]

/-- A short group leaves zeros behind it. -/
theorem regroup_short (hbase : 0 < base') (ds : List ℕ) {z p r : ℕ}
    (hpow : base ^ z = r * base' ^ p) :
    ∃ front, regroup base base' (k + p) (ds ++ List.replicate z 0)
        = front ++ List.replicate p 0 ∧ front.length = k := by
  rw [regroup, of_digits_zeros, hpow, ← Nat.mul_assoc, to_digits_zeros hbase]
  exact ⟨_, rfl, to_digits_length _ _⟩

end SysInC.Radix
