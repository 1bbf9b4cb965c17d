/-
The status of a pipeline in `low-utils/lsh.c`.

A single stage is waited for by its number, and a signal that kills it gives 128 and its number. The
stages of a pipeline are waited for as they come, and what counts is how the last of them to come
has terminated; a signal gives 0.
-/
import SysInC.Lsh
import Mathlib.Data.List.Perm.Basic

set_option autoImplicit false

namespace SysInC.Lsh

open Tokens

/-- The last stage was started, and its status is what is returned and stored. -/
def ReportsLast (line : List Char) (ends : ℕ → Exit) (order : List ℕ) : Prop :=
  let last := (pieces (· == '|') line).length - 1
  last < (stages line).length ∧
    wait_stages line ends order = (wait_single (ends last), wait_single (ends last))

/-- There are no more stages than can be started, and the one that terminates last exits with the
status of the last one, or it is killed and the last one exits with 0. -/
def LateAgrees (line : List Char) (ends : ℕ → Exit) (order : List ℕ) : Prop :=
  let last := (pieces (· == '|') line).length - 1
  (pieces (· == '|') line).length ≤ MAX_PIPES ∧ ∀ late ∈ order.getLast?,
    match ends late with
    | .exited code => wait_single (ends last) = code.toNat
    | .signaled _ => ends last = .exited 0

/-! ## The loop -/

variable {n : ℕ}

/-- Nothing is stored before the last turn. -/
theorem foldl_wait_turn {reaped : List Exit} {i : ℕ} (h : i + reaped.length ≤ n - 1)
    (final_status : ℤ) :
    reaped.foldl (wait_turn n) (i, final_status) = (i + reaped.length, final_status) := by
  induction reaped generalizing i with
  | nil => rfl
  | cons status reaped ih =>
    rw [List.length_cons] at h
    have hturn : wait_turn n (i, final_status) status = (i + 1, final_status) := by
      cases status with
      | exited code => exact congrArg (Prod.mk _) (if_neg (show i ≠ n - 1 by omega))
      | signaled sig => rfl
    rw [List.foldl_cons, hturn, ih (by omega), List.length_cons, Nat.add_right_comm, Nat.add_assoc]

/-- The status that the loop comes to. -/
theorem wait_stages_concat {line : List Char} {ends : ℕ → Exit} {front : List ℕ} {late : ℕ}
    (h : front.length + 1 = (stages line).length) :
    wait_stages line ends (front ++ [late]) =
      match ends late with
      | .exited code => ((code.toNat : ℤ), (code.toNat : ℤ))
      | .signaled _ => (0, 0) := by
  have hlen : 0 + (front.map ends).length ≤ (stages line).length - 1 := by
    rw [List.length_map]
    omega
  rw [wait_stages, List.map_append, List.foldl_append, foldl_wait_turn hlen, List.map_singleton,
    List.foldl_cons, List.foldl_nil, List.length_map, Nat.zero_add]
  cases ends late with
  | exited code =>
    have hlast : front.length = (stages line).length - 1 := by omega
    rw [wait_turn, if_pos hlast]
  | signaled sig => rfl

theorem wait_single_eq_zero (e : Exit) : wait_single e = 0 ↔ e = .exited 0 := by
  cases e with
  | exited code =>
    rw [wait_single, Exit.exited.injEq, ← UInt8.toNat_inj, Int.natCast_eq_zero]
    rfl
  | signaled sig =>
    rw [wait_single]
    exact iff_of_false (by omega) nofun

/-- **Pipelines.** The status of the last stage is reported exactly if it agrees with how the stage
that terminates last does so. -/
theorem pipeline_status_iff {line : List Char} (hline : 2 ≤ (pieces (· == '|') line).length)
    (ends : ℕ → Exit) {order : List ℕ} (horder : order.Perm (List.range (stages line).length)) :
    ReportsLast line ends order ↔ LateAgrees line ends order := by
  have hcount : (stages line).length = min MAX_PIPES (pieces (· == '|') line).length :=
    List.length_take
  have hlength : order.length = (stages line).length := by
    rw [horder.length_eq, List.length_range]
  obtain ⟨front, late, rfl⟩ : ∃ front late, order = front ++ [late] := by
    refine ⟨order.dropLast, _, (List.dropLast_append_getLast ?_).symm⟩
    refine List.ne_nil_of_length_pos ?_
    rw [hlength, hcount, MAX_PIPES]
    omega
  rw [List.length_append, List.length_singleton] at hlength
  have hstarted : (pieces (· == '|') line).length - 1 < (stages line).length ↔
      (pieces (· == '|') line).length ≤ MAX_PIPES := by
    rw [hcount]
    omega
  unfold ReportsLast LateAgrees
  rw [wait_stages_concat hlength, List.getLast?_concat]
  refine and_congr hstarted ?_
  simp only [Option.mem_def, Option.some.injEq, forall_eq']
  cases ends late with
  | exited code =>
    rw [Prod.mk.injEq, and_self]
    exact eq_comm
  | signaled sig =>
    rw [Prod.mk.injEq, and_self, eq_comm]
    exact wait_single_eq_zero _

/-- `a|b`, where `b` terminates first. -/
theorem pipeline_status_late :
    ReportsLast "a|b".toList (fun _ => .exited 3) [1, 0] ↔
      LateAgrees "a|b".toList (fun _ => .exited 3) [1, 0] :=
  pipeline_status_iff (by decide) _ (by decide)

/-- `a|b`, where `b` exits with 0 and then `a` with 1. -/
theorem pipeline_status_of_first :
    ¬ ReportsLast "a|b".toList (fun k => if k = 0 then .exited 1 else .exited 0) [1, 0] := by
  unfold ReportsLast
  decide

end SysInC.Lsh
