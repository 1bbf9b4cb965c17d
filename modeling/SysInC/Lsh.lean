/-
The shell `low-utils/lsh.c`: `process_line`, which takes a line apart at `;`, `&&` and `||`, and
`execute_pipeline`, which waits for the stages of a pipeline.

A string is the list of its characters without the NUL. `none` is a write outside of a buffer.
-/
import SysInC.Tokens
import Mathlib.Data.Int.Notation

set_option autoImplicit false

namespace SysInC.Lsh

open Tokens

def MAX_LINE_LEN : ℕ := 2048
def MAX_ARGS : ℕ := 128
def MAX_PIPES : ℕ := 16
def MAX_ALIASES : ℕ := 32

/-! ## `process_line` -/

section Lines

/-- What a command does to the world, and its status. -/
abbrev Executor (σ : Type*) := List Char → σ → σ × ℤ

structure Shell (σ : Type*) where
  world : σ
  last_exit_status : ℤ
  /-- The commands that were executed, with their status. -/
  executed : List (List Char × ℤ)

variable {σ : Type*} (exec : Executor σ)

/-- `int res = execute_pipeline(current_cmd);` -/
def execute (cmd : List Char) (s : Shell σ) : Shell σ × ℤ :=
  let (world, res) := exec cmd s.world
  (⟨world, res, s.executed ++ [(cmd, res)]⟩, res)

/-- The variables of `process_line`; `c_idx` is the length of `current_cmd`. -/
structure Line (σ : Type*) where
  current_cmd : List Char
  next_op : ℕ
  should_run : Bool
  shell : Shell σ

/-- What is done in front of a separator. -/
def flush (s : Line σ) : Option (Line σ) :=
  if s.current_cmd.length < MAX_LINE_LEN then
    if s.should_run = true ∧ 0 < s.current_cmd.length then
      let (shell, res) := execute exec s.current_cmd s.shell
      some { s with
        shell
        should_run :=
          if s.next_op = 1 ∧ res ≠ 0 then false
          else if s.next_op = 2 ∧ res = 0 then false
          else s.should_run }
    else some s
  else none

def process_loop : List Char → Line σ → Option (Line σ)
  | ';' :: p, s => (flush exec s).bind fun s =>
    process_loop p { s with current_cmd := [], next_op := 0, should_run := true }
  | '&' :: '&' :: p, s => (flush exec s).bind fun s =>
    process_loop p { s with
      current_cmd := [], next_op := 1, should_run := decide (s.shell.last_exit_status = 0) }
  | '|' :: '|' :: p, s => (flush exec s).bind fun s =>
    process_loop p { s with
      current_cmd := [], next_op := 2, should_run := decide (s.shell.last_exit_status ≠ 0) }
  | c :: p, s =>
    if s.current_cmd.length < MAX_LINE_LEN then
      process_loop p { s with current_cmd := s.current_cmd ++ [c] }
    else none
  | [], s => some s

def process_line (line : List Char) (shell : Shell σ) : Option (Shell σ) :=
  (process_loop exec line ⟨[], 0, true, shell⟩).bind fun s =>
    if 0 < s.current_cmd.length ∧ s.should_run = true then
      if s.current_cmd.length < MAX_LINE_LEN then some (execute exec s.current_cmd s.shell).1
      else none
    else some s.shell

end Lines

/-! ## `execute_pipeline` -/

/-- How a child terminates. -/
inductive Exit where
  | exited (code : UInt8)
  | signaled (sig : ℕ)
  deriving DecidableEq

/-- The stages that are started. -/
def stages (line : List Char) : List (List Char) :=
  (pieces (· == '|') line).take MAX_PIPES

/-- `last_exit_status` behind the `waitpid` for a single stage. -/
def wait_single : Exit → ℤ
  | .exited code => code.toNat
  | .signaled sig => 128 + sig

/-- One turn of the loop that waits for the stages, `i` of them before, with `final_status`. -/
def wait_turn (stage_cnt : ℕ) (s : ℕ × ℤ) (status : Exit) : ℕ × ℤ :=
  (s.1 + 1, match status with
    | .exited code => if s.1 = stage_cnt - 1 then code.toNat else s.2
    | .signaled _ => s.2)

/-- What `execute_pipeline` returns for two stages or more, and `last_exit_status` behind it. Stage
`k` terminates as `ends k`, and the stages are waited for in some order. -/
def wait_stages (line : List Char) (ends : ℕ → Exit) (order : List ℕ) : ℤ × ℤ :=
  let final_status := ((order.map ends).foldl (wait_turn (stages line).length) (0, 0)).2
  (final_status, final_status)

end SysInC.Lsh
