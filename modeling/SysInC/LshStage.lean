/-
A stage of a command line of the shell `low-utils/lsh.c`: its variables and its alias, and the
arguments and files that `execute_command_stage` and the builtin path of `execute_pipeline` find in
its text.

The parser works in the text itself. `buf` is what it has behind it, with the NULs that it has
written; the arguments and the file names are positions there, and each is read up to a NUL.
-/
import SysInC.Lsh

set_option autoImplicit false

namespace SysInC.Lsh

open Tokens

/-! ## Variables and aliases -/

structure Environment where
  getenv : List Char → Option (List Char)
  last_exit_status : ℤ
  /-- The active aliases, with their replacements. -/
  alias_table : List (List Char × List Char)

def isspace (c : Char) : Bool := c == ' ' || ('\t' ≤ c && c ≤ '\r')
def is_blank (c : Char) : Bool := c == ' ' || c == '\t'

variable (env : Environment)

/-- The loop of `expand_variables`, with what it has written. -/
def expand_loop (out_len : ℕ) : ℕ → List Char → List Char → List Char
  | 0, _, out => out
  | n + 1, p, out =>
    if out_len - 1 ≤ out.length then out
    else match p with
    | [] => out
    | '$' :: c :: p =>
      if c = '?' then
        expand_loop out_len n p
          ((out ++ (toString env.last_exit_status).toList).take (out_len - 1))
      else
        let var_name := ((c :: p).takeWhile fun c => c.isAlphanum || c == '_').take 63
        expand_loop out_len n ((c :: p).drop var_name.length)
          ((out ++ (env.getenv var_name).getD []).take (out_len - 1))
    | c :: p => expand_loop out_len n p (out ++ [c])

def expand_variables (cmd : List Char) (out_len : ℕ) : List Char :=
  expand_loop env out_len cmd.length cmd []

def apply_alias (cmd_in : List Char) (out_sz : ℕ) : List Char :=
  let first_word := (cmd_in.takeWhile (! isspace ·)).take 63
  match env.alias_table.lookup first_word with
  | some replacement => (replacement ++ cmd_in.drop first_word.length).take (out_sz - 1)
  | none => cmd_in.take (out_sz - 1)

def aliased (cmd_str : List Char) : List Char :=
  apply_alias env (expand_variables env cmd_str MAX_LINE_LEN) MAX_LINE_LEN

/-! ## The parser of a stage -/

structure Stage where
  buf : List Char
  args : List ℕ
  infile : Option ℕ
  outfile : Option ℕ
  append_out : Bool

/-- The name behind an operator, which ends at a blank or at `stop`: its position, what is behind
it, and the buffer. What it ends at is overwritten. -/
def read_target (stop : Char) (p buf : List Char) : ℕ × List Char × List Char :=
  let buf := buf ++ p.takeWhile is_blank
  let p := p.dropWhile is_blank
  let name := p.takeWhile fun c => !(is_blank c || c == stop)
  match p.drop name.length with
  | [] => (buf.length, [], buf ++ name)
  | _ :: p => (buf.length, p, buf ++ name ++ ['\x00'])

def parse : ℕ → List Char → Stage → Stage
  | 0, _, st => st
  | n + 1, p, st =>
    let buf := st.buf ++ p.takeWhile is_blank
    match p.dropWhile is_blank with
    | [] => { st with buf }
    | '>' :: '>' :: p =>
      let (pos, p, buf) := read_target '<' p (buf ++ ['>', '>'])
      parse n p { st with buf, outfile := some pos, append_out := true }
    | '>' :: p =>
      let (pos, p, buf) := read_target '<' p (buf ++ ['>'])
      parse n p { st with buf, outfile := some pos, append_out := false }
    | '<' :: p =>
      let (pos, p, buf) := read_target '>' p (buf ++ ['<'])
      parse n p { st with buf, infile := some pos }
    | c :: p =>
      if st.args.length < MAX_ARGS - 1 then
        let args := st.args ++ [buf.length]
        let word := (c :: p).takeWhile fun c => !(is_blank c || c == '>' || c == '<')
        match (c :: p).drop word.length with
        | [] => parse n [] { st with buf := buf ++ word, args }
        | b :: p =>
          if is_blank b = true then parse n p { st with buf := buf ++ word ++ ['\x00'], args }
          else parse n (b :: p) { st with buf := buf ++ word, args }
      else parse n p { st with buf := buf ++ [c] }

/-- The string that begins at a position. -/
def string_at (buf : List Char) (pos : ℕ) : List Char := (buf.drop pos).takeWhile (· != '\x00')

/-- A command: its arguments, what its input is redirected to, and what its output is redirected
to, with whether it is appended to that. -/
@[ext] structure Run where
  args : List (List Char)
  infile : Option (List Char)
  outfile : Option (List Char × Bool)
deriving DecidableEq

def Stage.run (st : Stage) : Run where
  args := st.args.map (string_at st.buf)
  infile := st.infile.map (string_at st.buf)
  outfile := st.outfile.map fun pos => (string_at st.buf pos, st.append_out)

def parse_stage (cmd : List Char) : Run := (parse cmd.length cmd ⟨[], [], none, none, false⟩).run

/-! ## Builtins -/

/-- The names that `handle_builtin` knows, but `exec`. -/
def builtins : List (List Char) :=
  ["exit".toList, "quit".toList, "clear".toList, "cls".toList, "cd".toList, "pwd".toList,
    "echo".toList, "read".toList, "source".toList, ".".toList, "alias".toList, "unalias".toList,
    "export".toList, "unset".toList, "history".toList, "which".toList, "type".toList,
    "help".toList]

/-- What `handle_builtin` runs itself. -/
def is_builtin : List (List Char) → Bool
  | [] => false
  | name :: rest => builtins.contains name || (name == "exec".toList && !rest.isEmpty)

/-- The names that `execute_pipeline` runs in the shell when they stand alone. -/
def shell_names : List (List Char) :=
  ["cd".toList, "exit".toList, "quit".toList, "help".toList, "export".toList, "unset".toList,
    "history".toList, "which".toList, "alias".toList, "unalias".toList, "read".toList,
    "source".toList, ".".toList, "clear".toList, "cls".toList, "echo".toList]

/-- What is run with which files. A builtin is run before the files are opened, and nothing is
when there is no argument. -/
def execute_command_stage (cmd_str : List Char) : Run :=
  let run := parse_stage (aliased env cmd_str)
  if run.args = [] ∨ is_builtin run.args = true then ⟨run.args, none, none⟩ else run

/-- What is behind the first `time`. -/
def after_time : List Char → Option (List Char)
  | [] => none
  | c :: p => if "time".toList.isPrefixOf (c :: p) = true then some ((c :: p).drop 4)
    else after_time p

/-- Where a stage runs. -/
inductive Place where
  | alone
  | piped
deriving DecidableEq

def first_word (stage : List Char) : Option (List Char) :=
  (pieces is_blank (aliased env stage)).head?

/-- The stage without a `time` in front of it. -/
def timed (stage : List Char) : List Char :=
  if first_word env stage = some "time".toList then (after_time stage).getD stage else stage

def execute_alone (stage : List Char) : Run :=
  match first_word env stage with
  | some name =>
    if shell_names.contains name = true then
      ⟨(pieces is_blank (aliased env stage)).take (MAX_ARGS - 1), none, none⟩
    else execute_command_stage env (timed env stage)
  | none => execute_command_stage env (timed env stage)

def execute_stage : Place → List Char → Run
  | .alone => execute_alone env
  | .piped => execute_command_stage env

/-- The commands of a pipeline. -/
def execute_pipeline (line : List Char) : List Run :=
  (stages line).map (execute_stage env (if (stages line).length = 1 then .alone else .piped))

end SysInC.Lsh
