/-
A ring of `n` cells with the next free cell and a count is a stack of at most `n` entries: pushing
on a full ring drops the oldest entry, and popping gives back the latest.

The entries are read off the ring from the top downwards, so that a push and a pop change the list
at its front.
-/
import Mathlib.Algebra.Order.Ring.Nat
import Mathlib.Data.List.Basic
import Mathlib.Data.Fin.Basic
import Mathlib.Logic.Function.Basic
import Mathlib.Tactic.Common

set_option autoImplicit false

namespace SysInC.RingStack

variable {α : Type*} {n : ℕ}

/-- The cell of the `k`-th entry below `head`. -/
def below (n head k : ℕ) : ℕ := if k < head then head - 1 - k else head + n - 1 - k

theorem below_lt {head k : ℕ} (hhead : head < n) (hk : k < n) : below n head k < n := by
  unfold below
  split <;> omega

theorem below_zero {head : ℕ} (hhead : head < n) : (head + n - 1) % n = below n head 0 := by
  unfold below
  split
  · have hwrap : head + n - 1 = (head - 1) + n := by omega
    rw [hwrap, Nat.add_mod_right, Nat.mod_eq_of_lt (by omega)]
    omega
  · have hzero : head = 0 := by omega
    rw [hzero, Nat.mod_eq_of_lt (by omega)]
    omega

/-- The cell behind `head`. -/
theorem succ_mod {head : ℕ} (hhead : head < n) :
    (head + 1) % n = if head + 1 < n then head + 1 else 0 := by
  split
  · next h => exact Nat.mod_eq_of_lt h
  · next h =>
      have hlast : head + 1 = n := by omega
      rw [hlast, Nat.mod_self]

theorem below_succ_zero {head : ℕ} (hhead : head < n) : below n ((head + 1) % n) 0 = head := by
  rw [succ_mod hhead]
  unfold below
  split_ifs <;> omega

theorem below_succ_succ {head k : ℕ} (hhead : head < n) (hk : k + 1 < n) :
    below n ((head + 1) % n) (k + 1) = below n head k := by
  rw [succ_mod hhead]
  unfold below
  split_ifs <;> omega

theorem below_pred {head k : ℕ} (hhead : head < n) (hk : k + 1 < n) :
    below n (below n head 0) k = below n head (k + 1) := by
  unfold below
  split_ifs <;> omega

/-- The next free cell holds no entry but, on a full ring, the oldest. -/
theorem below_ne_head {head k : ℕ} (hk : k + 1 < n) : below n head k ≠ head := by
  unfold below
  split <;> omega

/-! ## The entries -/

variable [NeZero n]

/-- The `count` entries below `head`, the latest first. -/
def contents (cells : Fin n → α) (head count : ℕ) : List α :=
  (List.range count).map fun k => cells (Fin.ofNat n (below n head k))

theorem contents_zero (cells : Fin n → α) (head : ℕ) : contents cells head 0 = [] := rfl

/-- **Push.** -/
theorem contents_push (cells : Fin n → α) {head count : ℕ} (hhead : head < n) (hcount : count ≤ n)
    (x : α) :
    contents (Function.update cells ⟨head, hhead⟩ x) ((head + 1) % n)
        (if count < n then count + 1 else count) =
      (x :: contents cells head count).take n := by
  obtain ⟨m, rfl⟩ : ∃ m, n = m + 1 := ⟨n - 1, by omega⟩
  have hnew : (if count < m + 1 then count + 1 else count) = min count m + 1 := by
    split <;> omega
  rw [hnew, List.take_succ_cons, contents, contents, List.range_succ_eq_map, List.map_cons,
    List.map_map, ← List.map_take, List.take_range]
  congr 1
  · rw [below_succ_zero hhead, show Fin.ofNat (m + 1) head = ⟨head, hhead⟩ from
      Fin.ext (Nat.mod_eq_of_lt hhead), Function.update_self]
  · rw [Nat.min_comm m count]
    refine List.map_congr_left fun k hk => ?_
    have hk : k + 1 < m + 1 := by
      have := List.mem_range.mp hk
      omega
    have hlt : below (m + 1) head k < m + 1 := below_lt hhead (by omega)
    rw [Function.comp_apply, below_succ_succ hhead hk, Function.update_of_ne]
    intro heq
    have hval := congrArg Fin.val heq
    rw [Fin.val_ofNat, Nat.mod_eq_of_lt hlt] at hval
    exact below_ne_head hk hval

/-- **Pop.** -/
theorem contents_pop (cells : Fin n → α) {head count : ℕ} (hhead : head < n) (hpos : 0 < count)
    (hcount : count ≤ n) :
    contents cells head count =
      cells (Fin.ofNat n (below n head 0)) :: contents cells (below n head 0) (count - 1) := by
  obtain ⟨c, rfl⟩ : ∃ c, count = c + 1 := ⟨count - 1, by omega⟩
  rw [contents, contents, List.range_succ_eq_map, List.map_cons, List.map_map,
    Nat.add_sub_cancel]
  congr 1
  refine List.map_congr_left fun k hk => ?_
  have hk : k + 1 < n := by
    have := List.mem_range.mp hk
    omega
  rw [Function.comp_apply, below_pred hhead hk]

end SysInC.RingStack
