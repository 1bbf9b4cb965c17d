/-
A ring of `n` cells with the index of the oldest entry and a count is a queue of at most `n`
entries: a push writes the cell behind the latest entry, a pop moves the index.

The entries are read off the ring from the oldest on. The latest end is at `(tail + count) % n`,
so that the index of the next free cell need not be kept apart from the other two.
-/
import Mathlib.Data.List.Basic
import Mathlib.Data.List.DropRight
import Mathlib.Data.Nat.ModEq
import Mathlib.Logic.Function.Basic
import Mathlib.Tactic.Common

set_option autoImplicit false

namespace SysInC.RingQueue

variable {α : Type*} {n : ℕ}

/-- The `count` entries from `tail` on, the oldest first. -/
def contents (n : ℕ) (cells : ℕ → α) (tail count : ℕ) : List α :=
  (List.range count).map fun k => cells ((tail + k) % n)

variable {cells : ℕ → α} {tail count : ℕ}

@[simp] theorem length_contents : (contents n cells tail count).length = count := by
  simp [contents]

/-- The cell behind the latest entry is none of the others. -/
theorem add_mod_ne {j k : ℕ} (hjk : j < k) (hk : k < n) : (tail + j) % n ≠ (tail + k) % n := by
  intro h
  have hmod : j % n = k % n := Nat.ModEq.add_left_cancel' tail h
  rw [Nat.mod_eq_of_lt (Nat.lt_trans hjk hk), Nat.mod_eq_of_lt hk] at hmod
  omega

/-- **Push.** -/
theorem contents_push (hcount : count < n) (x : α) :
    contents n (Function.update cells ((tail + count) % n) x) tail (count + 1)
      = contents n cells tail count ++ [x] := by
  unfold contents
  rw [List.range_succ, List.map_append, List.map_singleton, Function.update_self]
  congr 1
  refine List.map_congr_left fun k hk => ?_
  exact Function.update_of_ne (add_mod_ne (List.mem_range.mp hk) hcount) _ _

/-- **Pop.** -/
theorem contents_pop : contents n cells tail (count + 1)
    = cells (tail % n) :: contents n cells ((tail + 1) % n) count := by
  unfold contents
  rw [List.range_succ_eq_map, List.map_cons, List.map_map, Nat.add_zero]
  congr 1
  refine List.map_congr_left fun k _ => ?_
  rw [Function.comp_apply, Nat.mod_add_mod, Nat.succ_eq_add_one, Nat.add_comm k, Nat.add_assoc]

/-- **A push that the oldest entry makes way for**, when the ring is full. -/
theorem contents_push_newest (cells : ℕ → α) (tail : ℕ) (hcount : count ≤ n) (x : α) :
    contents n (Function.update cells ((tail + count) % n) x)
        (if count < n then tail else (tail + 1) % n) (if count < n then count + 1 else count)
      = (contents n cells tail count ++ [x]).rtake n := by
  obtain hlt | rfl := hcount.lt_or_eq
  · rw [if_pos hlt, if_pos hlt, contents_push hlt, List.rtake, List.length_append,
      length_contents, List.length_singleton, Nat.sub_eq_zero_of_le hlt, List.drop_zero]
  · rw [if_neg (Nat.lt_irrefl _), if_neg (Nat.lt_irrefl _)]
    cases count with
    | zero => rw [List.rtake_zero]; rfl
    | succ m =>
      have hcell : (tail + (m + 1)) % (m + 1) = ((tail + 1) % (m + 1) + m) % (m + 1) := by
        rw [Nat.mod_add_mod, Nat.add_assoc, Nat.add_comm 1]
      have hold : (contents (m + 1) cells tail (m + 1)).rtake m
          = contents (m + 1) cells ((tail + 1) % (m + 1)) m := by
        rw [List.rtake, length_contents, Nat.add_sub_cancel_left, contents_pop, List.drop_one,
          List.tail_cons]
      rw [List.rtake_concat_succ, hold, hcell, contents_push (Nat.lt_succ_self m)]

/-- What is cut off stays cut off when more is pushed. -/
theorem rtake_concat_rtake (l : List α) (n : ℕ) (x : α) :
    (l.rtake n ++ [x]).rtake n = (l ++ [x]).rtake n := by
  cases n with
  | zero => rw [List.rtake_zero, List.rtake_zero]
  | succ n =>
    rw [List.rtake_concat_succ, List.rtake_concat_succ, List.rtake, List.rtake, List.rtake,
      List.drop_drop, List.length_drop]
    congr 2
    omega

end SysInC.RingQueue
