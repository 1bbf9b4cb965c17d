/-
The stack of an operator-precedence parser. What waits on it is the right spine of the tree that is
being built: operators with their left operands, the innermost on top. An operator that arrives
takes off the top those that go before it.
-/
import Mathlib.Data.List.Basic
import Mathlib.Algebra.Order.Ring.Nat
import Mathlib.Tactic.Common

set_option autoImplicit false

namespace SysInC.OperatorStack

variable {Op T : Type*} (bin : Op → T → T → T)

/-- The waiting operators with their left operands, the innermost first. -/
abbrev Spine (Op T : Type*) := List (Op × T)

/-- The operators that go take the operand on their right, from the top downwards. -/
def collapse (goes : Op → Bool) : Spine Op T → T → Spine Op T × T
  | [], v => ([], v)
  | (o, l) :: spine, v =>
      if goes o then collapse goes spine (bin o l v) else ((o, l) :: spine, v)

/-- All operators take their right operands. -/
def close : Spine Op T → T → T
  | [], v => v
  | (o, l) :: spine, v => close spine (bin o l v)

/-- The stack behind an operator that arrives, with the tree so far as its left operand. -/
def push (goes : Op → Bool) (o : Op) (spine : Spine Op T) (v : T) : Spine Op T :=
  (o, (collapse bin goes spine v).2) :: (collapse bin goes spine v).1

theorem close_append (upper lower : Spine Op T) (v : T) :
    close bin (upper ++ lower) v = close bin lower (close bin upper v) := by
  induction upper generalizing v with
  | nil => rfl
  | cons p upper ih => exact ih _

/-- What goes, goes. -/
theorem collapse_append {goes : Op → Bool} {upper : Spine Op T}
    (h : ∀ p ∈ upper, goes p.1 = true) (lower : Spine Op T) (v : T) :
    collapse bin goes (upper ++ lower) v = collapse bin goes lower (close bin upper v) := by
  induction upper generalizing v with
  | nil => rfl
  | cons p upper ih =>
      rw [List.forall_mem_cons] at h
      rw [List.cons_append, collapse, if_pos h.1, ih h.2, close]

/-- Nothing goes when the top does not. -/
theorem collapse_of_stays {goes : Op → Bool} {spine : Spine Op T}
    (h : ∀ p ∈ spine, goes p.1 = false) (v : T) : collapse bin goes spine v = (spine, v) := by
  cases spine with
  | nil => rfl
  | cons p spine =>
      rw [collapse, if_neg]
      rw [h p List.mem_cons_self]
      exact Bool.false_ne_true

/-- An operator that takes exactly the upper part of the stack off. -/
theorem push_append {goes : Op → Bool} {upper lower : Spine Op T}
    (hupper : ∀ p ∈ upper, goes p.1 = true) (hlower : ∀ p ∈ lower, goes p.1 = false) (o : Op)
    (v : T) : push bin goes o (upper ++ lower) v = (o, close bin upper v) :: lower := by
  rw [push, collapse_append bin hupper, collapse_of_stays bin hlower]

theorem push_all {goes : Op → Bool} {spine : Spine Op T} (h : ∀ p ∈ spine, goes p.1 = true)
    (o : Op) (v : T) : push bin goes o spine v = [(o, close bin spine v)] := by
  have hnil : ∀ p ∈ ([] : Spine Op T), goes p.1 = false := fun _ hp => nomatch hp
  have hpush := push_append bin h hnil o v
  rwa [List.append_nil] at hpush

theorem push_none {goes : Op → Bool} {spine : Spine Op T} (h : ∀ p ∈ spine, goes p.1 = false)
    (o : Op) (v : T) : push bin goes o spine v = (o, v) :: spine := by
  rw [push, collapse_of_stays bin h]

theorem mem_collapse {goes : Op → Bool} {spine : Spine Op T} {v : T} {p : Op × T}
    (h : p ∈ (collapse bin goes spine v).1) : p ∈ spine := by
  induction spine generalizing v with
  | nil => exact h
  | cons q spine ih =>
      rw [collapse] at h
      split at h
      · exact List.mem_cons_of_mem _ (ih h)
      · exact h

/-! ## A measure that operators add up -/

section

variable (size : T → ℕ)

/-- The measure of a stack and the tree so far. -/
def total (spine : Spine Op T) (v : T) : ℕ := (spine.map fun p => size p.2).sum + size v

variable {size} (hbin : ∀ o l r, size (bin o l r) = size l + size r)
include hbin

theorem size_close (spine : Spine Op T) (v : T) :
    size (close bin spine v) = total size spine v := by
  induction spine generalizing v with
  | nil => rw [close, total, List.map_nil, List.sum_nil, Nat.zero_add]
  | cons p spine ih =>
      rw [close, ih, total, total, hbin, List.map_cons, List.sum_cons]
      omega

theorem total_collapse (goes : Op → Bool) (spine : Spine Op T) (v : T) :
    total size (collapse bin goes spine v).1 (collapse bin goes spine v).2 =
      total size spine v := by
  induction spine generalizing v with
  | nil => rfl
  | cons p spine ih =>
      rw [collapse]
      split
      · rw [ih, total, total, hbin, List.map_cons, List.sum_cons]
        omega
      · rfl

/-- An operator and an operand behind it. -/
theorem total_push (goes : Op → Bool) (o : Op) (spine : Spine Op T) (v w : T) :
    total size (push bin goes o spine v) w = total size spine v + size w := by
  have h := total_collapse bin hbin goes spine v
  rw [total] at h
  rw [push, total, List.map_cons, List.sum_cons]
  dsimp only
  omega

end

end SysInC.OperatorStack
