/-
Buffers that are written from the front, byte by byte. `none` is a write outside of the buffer.
-/
import Mathlib.Data.List.Basic
import Mathlib.Algebra.Order.Ring.Nat
import Mathlib.Tactic.Common

set_option autoImplicit false

namespace SysInC.OutBuffer

variable {α : Type*}

/-- `out[i] = b;` -/
def store (out : List α) (i : ℕ) (b : α) : Option (List α) :=
  if i < out.length then some (out.set i b) else none

/-- `out[j++] = b;` for each `b`. -/
def store_all (out : List α) (j : ℕ) : List α → Option (List α)
  | [] => some out
  | b :: bs => (store out j b).bind fun out => store_all out (j + 1) bs

/-- `if (j < limit) out[j++] = b;` for each `b`. -/
def store_upto (limit : ℕ) : List α → ℕ × List α → Option (ℕ × List α)
  | [], r => some r
  | b :: bs, r =>
    if r.1 < limit then
      (store r.2 r.1 b).bind fun out => store_upto limit bs (r.1 + 1, out)
    else store_upto limit bs r

/-- A byte behind those in front. -/
theorem store_append (pre : List α) {old : List α} (h : old ≠ []) (b : α) :
    store (pre ++ old) pre.length b = some (pre ++ b :: old.tail) := by
  obtain ⟨x, rest, rfl⟩ := List.exists_cons_of_ne_nil h
  have hroom : pre.length < (pre ++ x :: rest).length := by
    rw [List.length_append, List.length_cons]
    omega
  rw [store, if_pos hroom, List.set_append_right pre.length b le_rfl, Nat.sub_self,
    List.set_cons_zero, List.tail_cons]

theorem store_middle (pre : List α) (x : α) (post : List α) (b : α) :
    store (pre ++ x :: post) pre.length b = some (pre ++ b :: post) :=
  store_append pre (List.cons_ne_nil x post) b

/-- The bytes take the place of as many. -/
theorem store_all_append (pre : List α) {old bs : List α} (post : List α)
    (h : bs.length = old.length) :
    store_all (pre ++ (old ++ post)) pre.length bs = some (pre ++ (bs ++ post)) := by
  induction bs generalizing pre old with
  | nil =>
      rw [List.eq_nil_of_length_eq_zero h.symm]
      rfl
  | cons b bs ih =>
      obtain ⟨x, old, rfl⟩ : ∃ x rest, old = x :: rest := by
        cases old with
        | nil => cases h
        | cons x rest => exact ⟨x, rest, rfl⟩
      have hlen : bs.length = old.length := by simpa using h
      rw [store_all, store_append pre (by simp) b, Option.bind_some, List.cons_append,
        List.tail_cons, List.append_cons pre b (old ++ post)]
      have hnext := ih (pre ++ [b]) hlen
      rw [List.length_append, List.length_singleton] at hnext
      rw [hnext, List.append_assoc]
      rfl

/-- What bounded writes make of a block: what fits of the bytes, and behind it the block. -/
def filled (block : List α) (limit : ℕ) (bs : List α) : ℕ × List α :=
  (min bs.length limit, bs.take limit ++ block.drop (min bs.length limit))

theorem filled_nil (block : List α) (limit : ℕ) : filled block limit [] = (0, block) := by
  rw [filled, List.length_nil, Nat.zero_min, List.take_nil, List.nil_append, List.drop_zero]

theorem store_upto_filled {block : List α} {limit : ℕ} (hroom : limit < block.length)
    (ws bs : List α) :
    store_upto limit bs (filled block limit ws) = some (filled block limit (ws ++ bs)) := by
  induction bs generalizing ws with
  | nil => rw [store_upto, List.append_nil]
  | cons b bs ih =>
      have hnext : filled block limit (ws ++ [b])
          = if min ws.length limit < limit
            then (ws.length + 1, ws ++ b :: block.drop (ws.length + 1))
            else filled block limit ws := by
        rw [filled, filled, List.length_append, List.length_singleton]
        split_ifs with hlt
        · have hle : ws.length + 1 ≤ limit := by omega
          rw [Nat.min_eq_left hle, List.take_of_length_le
            (by rwa [List.length_append, List.length_singleton]), List.append_assoc]
          rfl
        · have hge : limit ≤ ws.length := by omega
          rw [Nat.min_eq_right hge, Nat.min_eq_right (hge.trans (Nat.le_succ _)),
            List.take_append_of_le_length hge]
      have hstep := ih (ws ++ [b])
      rw [List.append_assoc, List.singleton_append, hnext] at hstep
      rw [store_upto]
      by_cases hlt : min ws.length limit < limit
      · -- the byte is stored behind the others
        have hlen : ws.length < limit := by omega
        have hdrop : block.drop ws.length ≠ [] := by
          rw [Ne, List.drop_eq_nil_iff]
          omega
        rw [if_pos hlt] at hstep
        rw [if_pos (show (filled block limit ws).1 < limit from hlt), filled,
          Nat.min_eq_left hlen.le, List.take_of_length_le hlen.le, store_append ws hdrop,
          Option.bind_some, List.tail_drop, hstep]
      · rw [if_neg hlt] at hstep
        rw [if_neg (show ¬ (filled block limit ws).1 < limit from hlt), hstep]

/-- The byte behind the limit. -/
theorem store_filled {block : List α} {limit : ℕ} (hlen : block.length = limit + 1) {bs : List α}
    (h : limit ≤ bs.length) (b : α) :
    store (filled block limit bs).2 limit b = some (bs.take limit ++ [b]) := by
  have hfront : (bs.take limit).length = limit := List.length_take_of_le h
  have hold : block.drop limit ≠ [] := by
    rw [Ne, List.drop_eq_nil_iff]
    omega
  have hstore := store_append (bs.take limit) hold b
  rw [hfront, List.tail_drop, List.drop_of_length_le hlen.le] at hstore
  rw [filled, Nat.min_eq_right h]
  exact hstore

end SysInC.OutBuffer
