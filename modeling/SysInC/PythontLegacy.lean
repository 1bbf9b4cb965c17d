/-
The line translator of `src/pythont/pythont.c` (`emit`, `handle_dedent`, `transpile_line`): each
logical line of a Python source becomes C text at once, and a stack of indentations says which
braces are open.

A line is given by its form and the texts that are printed for it, behind what the rewriting of
expressions has made of them; `transpile_line` picks the form by the line's first characters. Names
that are registered as variables have no part in what follows. The braces of a format are written
`\x7b` and `\x7d`.
-/
import Mathlib.Algebra.Order.Ring.Nat
import Mathlib.Data.List.Basic
import Mathlib.Tactic.Common

set_option autoImplicit false

namespace SysInC.PythontLegacy

abbrev MAX_INDENTS : ℕ := 64
abbrev MAX_CODE_SZ : ℕ := 1024 * 1024

inductive block_type_t where
  | BLOCK_FUNC
  | BLOCK_INIT
  | BLOCK_IF
  | BLOCK_LOOP
  | BLOCK_CLASS
  | BLOCK_WITH
  | BLOCK_TRY
  | BLOCK_EXCEPT
  deriving DecidableEq

/-! ## Text -/

/-- What is printed for a format: its own characters, and the texts in the places of its `%s`. -/
inductive Piece where
  | lit (text : String)
  | arg (text : String)

abbrev Fragment := List Piece

def Piece.size : Piece → ℕ
  | .lit text => text.utf8ByteSize
  | .arg text => text.utf8ByteSize

def Fragment.size (fragment : Fragment) : ℕ := (fragment.map Piece.size).sum

/-- The fragments of a text, each with the indentation of the line that it comes from. -/
abbrev Buffer := List (ℕ × Fragment)

def Buffer.size (buffer : Buffer) : ℕ := (buffer.map fun f => Fragment.size f.2).sum

/-! ## Lines -/

/-- The arguments of `range`. -/
inductive RangeArgs where
  | one (arg1 : String)
  | two (arg1 arg2 : String)
  | three (arg1 arg2 arg3 : String) (negative : Bool)

/-- How a value is stored in a dictionary. -/
inductive DictValue where
  | str | float | int

/-- What the loop of a comprehension runs over. -/
inductive Iterated where
  | range (args : RangeArgs)
  | list (name : String)

/-- The statements that are no block. -/
inductive Simple where
  | return_expr (expr : String)
  | return_none
  | break_
  | continue_
  | pass_
  | print (fmt_str : String) (val_list : Option String)
  | write (vname arg : String)
  | close (vname : String)
  | append (vname arg : String)
  | pop (vname : String)
  | reverse (vname : String)
  | clear (vname : String)
  | augmented (vstart op_symbol val_expr : String)
  | lambda (vstart fn_decl l_body : String)
  | comprehension (vstart item_expr var_item : String) (iter : Iterated) (cond : Option String)
  | unpack (v1 e1 v2 e2 : String)
  | open_file (vstart o_args : String)
  | self_field (field vexpr : String)
  | object (vstart class_name init_args : String)
  | dict_item (kind : DictValue) (vstart d_key vexpr : String)
  | list_item (vstart d_key vexpr : String)
  | dict_literal (vstart : String) (pairs : List (DictValue × String × String))
  | list_literal (vstart items_only : String) (elem_count : ℕ)
  | list_empty (vstart : String)
  | assign (vstart vexpr : String)
  | expression (line : String)

/-- The forms of a line. -/
inductive Line where
  | with_open (open_args var_name : String)
  | try_
  | except_
  | class_ (cname : String)
  | def_ (fn_name : String) (args : List String)
  | for_ (var_name : String) (args : RangeArgs)
  | while_ (cond : String)
  | if_ (cond : String)
  | elif_ (cond : String)
  | else_
  | simple (s : Simple)

/-- A logical line with the number of blanks in front of it. -/
structure SourceLine where
  indent : ℕ
  line : Line

/-! ## The translator's state -/

structure Block where
  block_indent : ℕ
  block_type : block_type_t
  block_var : String

/-- The blocks are the three arrays up to `block_top`, the last one first. `pending` is
`pending_type` and `pending_var` while `pending_block` is set. Of `stderr` there is only whether
something has been reported. -/
structure State where
  class_struct_buffer : Buffer
  func_buffer : Buffer
  main_buffer : Buffer
  active_class : String
  blocks : List Block
  pending : Option (block_type_t × String)
  inside_function : Bool
  reported : Bool

def initial : State := {
  class_struct_buffer := []
  func_buffer := []
  main_buffer := []
  active_class := ""
  blocks := []
  pending := none
  inside_function := false
  reported := false
}

/-- A fragment that is too large, or that has no room in its buffer, is reported and dropped. The
indentation is only recorded. -/
def emit (indent : ℕ) (st : State) (fragment : Fragment) : State :=
  if 2048 ≤ fragment.size then { st with reported := true }
  else if st.inside_function = true then
    if MAX_CODE_SZ / 2 - 1 ≤ Buffer.size st.func_buffer + fragment.size then
      { st with reported := true }
    else { st with func_buffer := st.func_buffer ++ [(indent, fragment)] }
  else if MAX_CODE_SZ / 2 - 1 ≤ Buffer.size st.main_buffer + fragment.size then
    { st with reported := true }
  else { st with main_buffer := st.main_buffer ++ [(indent, fragment)] }

def emit_class_struct (indent : ℕ) (st : State) (fragment : Fragment) : State :=
  if 2048 ≤ fragment.size then { st with reported := true }
  else if MAX_CODE_SZ / 4 - 1 ≤ Buffer.size st.class_struct_buffer + fragment.size then
    { st with reported := true }
  else { st with class_struct_buffer := st.class_struct_buffer ++ [(indent, fragment)] }

/-- One `emit` after the other. -/
def emits (indent : ℕ) (fragments : List Fragment) (st : State) : State :=
  fragments.foldl (emit indent) st

/-! ## Dedents -/

/-- What is done for a block that has just been taken off the stack. -/
def close_block (indent : ℕ) (is_else_or_elif : Bool) (popped : Block) (st : State) : State :=
  match popped.block_type with
  | .BLOCK_INIT =>
      { emits indent [[.lit "    return self;\n"], [.lit "\x7d\n"]] st with
        inside_function := false }
  | .BLOCK_FUNC => { emits indent [[.lit "\x7d\n"]] st with inside_function := false }
  | .BLOCK_CLASS => { st with active_class := "" }
  | .BLOCK_WITH =>
      emits indent [[.lit "        py_file_close(&", .arg popped.block_var, .lit ");\n"],
        [.lit "    \x7d\n"]] st
  | .BLOCK_TRY => emits indent [[.lit "    \x7d while(0);\n"]] st
  | .BLOCK_EXCEPT => emits indent [[.lit "    \x7d\n"]] st
  | .BLOCK_IF | .BLOCK_LOOP =>
      if is_else_or_elif = false ∨ st.blocks ≠ [] then emits indent [[.lit "    \x7d\n"]] st else st

def pop_blocks (new_indent : ℕ) (is_else_or_elif : Bool) : List Block → State → State
  | [], st => { st with blocks := [] }
  | b :: blocks, st =>
      if new_indent < b.block_indent then
        pop_blocks new_indent is_else_or_elif blocks
          (close_block new_indent is_else_or_elif b { st with blocks := blocks })
      else { st with blocks := b :: blocks }

def handle_dedent (new_indent : ℕ) (is_else_or_elif : Bool) (st : State) : State :=
  pop_blocks new_indent is_else_or_elif st.blocks st

/-! ## Lines -/

/-- The block that waits for its first line goes on the stack, if there is room. -/
def open_pending (indent : ℕ) (st : State) : State :=
  match st.pending with
  | none => st
  | some (pending_type, pending_var) =>
      { st with
        blocks := if st.blocks.length < MAX_INDENTS then ⟨indent, pending_type, pending_var⟩ ::
          st.blocks else st.blocks
        pending := none }

def for_header (declare : String) (var : String) : RangeArgs → Fragment
  | .one arg1 => [.lit "    for (", .lit declare, .arg var, .lit " = 0; ", .arg var, .lit " < ",
      .arg arg1, .lit "; ", .arg var, .lit "++) \x7b\n"]
  | .two arg1 arg2 => [.lit "    for (", .lit declare, .arg var, .lit " = ", .arg arg1, .lit "; ",
      .arg var, .lit " < ", .arg arg2, .lit "; ", .arg var, .lit "++) \x7b\n"]
  | .three arg1 arg2 arg3 negative => [.lit "    for (", .lit declare, .arg var, .lit " = ",
      .arg arg1, .lit "; ", .arg var, .lit (if negative then " > " else " < "), .arg arg2,
      .lit "; ", .arg var, .lit " += ", .arg arg3, .lit ") \x7b\n"]

/-- The loop of a comprehension goes up, whatever the sign of its step. -/
def upward : RangeArgs → RangeArgs
  | .three arg1 arg2 arg3 _ => .three arg1 arg2 arg3 false
  | args => args

def dict_set (kind : DictValue) (name key value : String) : Fragment :=
  [.lit (match kind with
    | .str => "    py_dict_set_str(&"
    | .float => "    py_dict_set_float(&"
    | .int => "    py_dict_set_int(&"), .arg name, .lit ", ", .arg key, .lit ", ", .arg value,
    .lit ");\n"]

def comprehension_loop (var_item : String) : Iterated → List Fragment
  | .range args => [for_header "int64_t " var_item (upward args)]
  | .list iter_expr =>
      [[.lit "    for (int64_t _i = 0; _i < len_", .arg iter_expr, .lit "; _i++) \x7b\n"],
        [.lit "        int64_t ", .arg var_item, .lit " = ", .arg iter_expr, .lit "[_i];\n"]]

def comprehension_body (vstart item_expr : String) : Option String → List Fragment
  | some cond_expr =>
      [[.lit "        if (", .arg cond_expr, .lit ") \x7b\n"],
        [.lit "            ", .arg vstart, .lit "[len_", .arg vstart, .lit "++] = (int64_t)(",
          .arg item_expr, .lit ");\n"],
        [.lit "        \x7d\n"]]
  | none =>
      [[.lit "        ", .arg vstart, .lit "[len_", .arg vstart, .lit "++] = (int64_t)(",
        .arg item_expr, .lit ");\n"]]

/-- What a simple statement prints. -/
def simple_text (st : State) : Simple → List Fragment
  | .return_expr expr => [[.lit "    return ", .arg expr, .lit ";\n"]]
  | .return_none =>
      if st.inside_function = true ∧ st.active_class ≠ "" then [[.lit "    return self;\n"]]
      else [[.lit "    return 0;\n"]]
  | .break_ => [[.lit "    break;\n"]]
  | .continue_ => [[.lit "    continue;\n"]]
  | .pass_ => [[.lit "    /* pass */;\n"]]
  | .print fmt_str (some val_list) =>
      [[.lit "    printf(\"", .arg fmt_str, .lit "\\n\", ", .arg val_list, .lit ");\n"]]
  | .print fmt_str none => [[.lit "    printf(\"", .arg fmt_str, .lit "\\n\");\n"]]
  | .write vname arg =>
      [[.lit "    py_file_write(&", .arg vname, .lit ", ", .arg arg, .lit ");\n"]]
  | .close vname => [[.lit "    py_file_close(&", .arg vname, .lit ");\n"]]
  | .append vname arg =>
      [[.lit "    ", .arg vname, .lit "[len_", .arg vname, .lit "++] = (int64_t)(", .arg arg,
        .lit ");\n"]]
  | .pop vname =>
      [[.lit "    if (len_", .arg vname, .lit " > 0) len_", .arg vname, .lit "--;\n"]]
  | .reverse vname =>
      [[.lit "    py_list_reverse(", .arg vname, .lit ", len_", .arg vname, .lit ");\n"]]
  | .clear vname => [[.lit "    len_", .arg vname, .lit " = 0;\n"]]
  | .augmented vstart op_symbol val_expr =>
      [[.lit "    ", .arg vstart, .lit " ", .arg op_symbol, .lit " ", .arg val_expr, .lit ";\n"]]
  | .lambda vstart fn_decl l_body =>
      [[.lit "\nstatic inline int64_t ", .arg vstart, .lit "(", .arg fn_decl,
        .lit ") \x7b\n    return ", .arg l_body, .lit ";\n\x7d\n"]]
  | .comprehension vstart item_expr var_item iter cond =>
      [[.lit "    len_", .arg vstart, .lit " = 0;\n"]] ++ (comprehension_loop var_item iter ++
        (comprehension_body vstart item_expr cond ++ [[.lit "    \x7d\n"]]))
  | .unpack v1 e1 v2 e2 =>
      [[.lit "    ", .arg v1, .lit " = ", .arg e1, .lit ";\n    ", .arg v2, .lit " = ", .arg e2,
        .lit ";\n"]]
  | .open_file vstart o_args =>
      [[.lit "    ", .arg vstart, .lit " = py_open(", .arg o_args, .lit ");\n"]]
  | .self_field field vexpr =>
      if st.inside_function = true ∧ st.active_class ≠ "" ∧
        st.blocks.head?.map Block.block_type = some .BLOCK_INIT then
        [[.lit "    self.", .arg field, .lit " = ", .arg vexpr, .lit ";\n"]]
      else [[.lit "    self->", .arg field, .lit " = ", .arg vexpr, .lit ";\n"]]
  | .object vstart class_name init_args =>
      [[.lit "    ", .arg vstart, .lit " = ", .arg class_name, .lit "_init(", .arg init_args,
        .lit ");\n"]]
  | .dict_item kind vstart d_key vexpr => [dict_set kind vstart d_key vexpr]
  | .list_item vstart d_key vexpr =>
      [[.lit "    ", .arg vstart, .lit "[", .arg d_key, .lit "] = (int64_t)(", .arg vexpr,
        .lit ");\n"]]
  | .dict_literal vstart pairs =>
      [.lit "    py_dict_init(&", .arg vstart, .lit ");\n"] ::
        pairs.map fun p => dict_set p.1 vstart p.2.1 p.2.2
  | .list_literal vstart items_only elem_count =>
      [[.lit "    \x7b static const int64_t _init[] = \x7b", .arg items_only, .lit "\x7d; memcpy(",
        .arg vstart, .lit ", _init, sizeof(_init)); len_", .arg vstart, .lit " = ",
        .arg (toString elem_count), .lit "; \x7d\n"]]
  | .list_empty vstart => [[.lit "    len_", .arg vstart, .lit " = 0;\n"]]
  | .assign vstart vexpr => [[.lit "    ", .arg vstart, .lit " = ", .arg vexpr, .lit ";\n"]]
  | .expression line => [[.lit "    ", .arg line, .lit ";\n"]]

/-- A lambda goes to the functions, wherever it stands. -/
def transpile_simple (indent : ℕ) (s : Simple) (st : State) : State :=
  match s with
  | .lambda _ _ _ =>
      { emits indent (simple_text st s) { st with inside_function := true } with
        inside_function := st.inside_function }
  | _ => emits indent (simple_text st s) st

/-- Parameters behind the first one. -/
def more_params (args : List String) : List Fragment :=
  args.flatMap fun arg => [[.lit ", "], [.lit "int64_t ", .arg arg]]

def params : List String → List Fragment
  | [] => [[.lit "void"]]
  | arg :: args => [.lit "int64_t ", .arg arg] :: more_params args

/-- The parameters of `__init__` but for `self`. -/
def init_params (args : List String) : List Fragment :=
  List.intersperse ([.lit ", "] : Fragment) ((args.filter (· ≠ "self")).map fun arg =>
    [.lit (if arg = "nome" ∨ arg = "especie" then "const char *" else "int64_t "), .arg arg])

def method_params (args : List String) : List Fragment :=
  (args.filter (· ≠ "self")).map fun arg => [.lit ", int64_t ", .arg arg]

def transpile_def (indent : ℕ) (fn_name : String) (args : List String) (st : State) : State :=
  let st := { st with inside_function := true }
  if st.active_class ≠ "" ∧ fn_name = "__init__" then
    { emits indent ([.lit "\n", .arg st.active_class, .lit " ", .arg st.active_class,
        .lit "_init("] :: (init_params args ++ [[.lit ") \x7b\n"],
          [.lit "    ", .arg st.active_class, .lit " self = \x7b0\x7d;\n"]])) st with
      pending := some (.BLOCK_INIT, "") }
  else if st.active_class ≠ "" then
    { emits indent ([.lit "\nvoid ", .arg st.active_class, .lit "_", .arg fn_name, .lit "(",
        .arg st.active_class, .lit " *self"] :: (method_params args ++ [[.lit ") \x7b\n"]])) st with
      pending := some (.BLOCK_FUNC, "") }
  else
    { emits indent ([.lit "\nint64_t ", .arg fn_name, .lit "("] ::
        (params args ++ [[.lit ") \x7b\n"]])) st with
      pending := some (.BLOCK_FUNC, "") }

def transpile_class (indent : ℕ) (cname : String) (st : State) : State :=
  let fragments : List Fragment := [[.lit "\ntypedef struct ", .arg cname, .lit " \x7b\n"],
    [.lit "    const char *nome;\n"],
    [.lit "    const char *especie;\n"],
    [.lit "    int64_t vida;\n"],
    [.lit "    int64_t forca;\n"],
    [.lit "    int64_t xp;\n"],
    [.lit "\x7d ", .arg cname, .lit ";\n\n"]]
  { fragments.foldl (emit_class_struct indent) { st with active_class := cname } with
    pending := some (.BLOCK_CLASS, "") }

/-- A header, and the block that it opens. -/
def transpile_header (indent : ℕ) (block : block_type_t) (var : String)
    (fragments : List Fragment) (st : State) : State :=
  { emits indent fragments st with pending := some (block, var) }

def is_else : Line → Bool
  | .else_ => true
  | _ => false

def is_elif : Line → Bool
  | .elif_ _ => true
  | _ => false

def is_except : Line → Bool
  | .except_ => true
  | _ => false

/-- What is printed for the line itself. -/
def transpile_form (indent : ℕ) (line : Line) (st : State) : State :=
  match line with
  | .with_open open_args var_name =>
      transpile_header indent .BLOCK_WITH var_name
        [[.lit "    ", .arg var_name, .lit " = py_open(", .arg open_args, .lit ");\n"],
          [.lit "    if (", .arg var_name, .lit ".is_open) \x7b\n"]] st
  | .try_ => transpile_header indent .BLOCK_TRY "" [[.lit "    do \x7b\n"]] st
  | .except_ => transpile_header indent .BLOCK_EXCEPT "" [[.lit "    if (0) \x7b\n"]] st
  | .class_ cname => transpile_class indent cname st
  | .def_ fn_name args => transpile_def indent fn_name args st
  | .for_ var_name args =>
      transpile_header indent .BLOCK_LOOP "" [for_header "" var_name args] st
  | .while_ cond =>
      transpile_header indent .BLOCK_LOOP "" [[.lit "    while (", .arg cond, .lit ") \x7b\n"]] st
  | .if_ cond =>
      transpile_header indent .BLOCK_IF "" [[.lit "    if (", .arg cond, .lit ") \x7b\n"]] st
  | .elif_ cond =>
      transpile_header indent .BLOCK_IF ""
        [[.lit "    \x7d else if (", .arg cond, .lit ") \x7b\n"]] st
  | .else_ => transpile_header indent .BLOCK_IF "" [[.lit "    \x7d else \x7b\n"]] st
  | .simple s => transpile_simple indent s st

def transpile_line (st : State) (l : SourceLine) : State :=
  transpile_form l.indent l.line (open_pending l.indent
    (handle_dedent l.indent (is_else l.line || is_elif l.line || is_except l.line) st))

def transpile_lines (lines : List SourceLine) : State := lines.foldl transpile_line initial

/-- The end of the program closes what is open. -/
def translate (lines : List SourceLine) : State :=
  handle_dedent 0 false (transpile_lines lines)

end SysInC.PythontLegacy
