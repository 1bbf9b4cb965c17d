/-
The back end of `src/pythont/pythont.c` (`ast_infer_type` .. `ast_compile_source`): the tree
becomes the text of a C program.

An `ast_cgen_t` keeps the text instead of `buf` and `pos`. The allocation of the buffer
succeeds. What `ast_infer_type` finds is stored in the nodes and printed by the dump only, so
here it is a function.
-/
import SysInC.PythontAst

set_option autoImplicit false

namespace SysInC.Pythont

/-! ## Types -/

inductive ast_value_type_t where
  | AST_TYPE_UNKNOWN
  | AST_TYPE_INT
  | AST_TYPE_FLOAT
  | AST_TYPE_STRING
  | AST_TYPE_BOOL
  | AST_TYPE_LIST
  | AST_TYPE_TUPLE
  | AST_TYPE_DICT
  | AST_TYPE_NONE
  deriving DecidableEq

/-- The operators with a truth value. -/
def ast_is_bool_op (op : String) : Bool :=
  op ∈ ["==", "!=", "<", "<=", ">", ">=", "and", "or", "in", "is"]

def ast_infer_type : ast_expr → ast_value_type_t
  | .number text => if '.' ∈ text.toList then .AST_TYPE_FLOAT else .AST_TYPE_INT
  | .string _ => .AST_TYPE_STRING
  | .identifier text =>
    if text = "True" ∨ text = "False" then .AST_TYPE_BOOL
    else if text = "None" then .AST_TYPE_NONE
    else .AST_TYPE_UNKNOWN
  | .unary op operand => if op = "not" then .AST_TYPE_BOOL else ast_infer_type operand
  | .binary op left right =>
    if ast_is_bool_op op then .AST_TYPE_BOOL
    else if ast_infer_type left = .AST_TYPE_FLOAT ∨ ast_infer_type right = .AST_TYPE_FLOAT then
      .AST_TYPE_FLOAT
    else if ast_infer_type left = .AST_TYPE_INT ∧ ast_infer_type right = .AST_TYPE_INT then
      .AST_TYPE_INT
    else .AST_TYPE_UNKNOWN
  | .list _ => .AST_TYPE_LIST
  | .tuple _ => .AST_TYPE_TUPLE
  | .dict _ => .AST_TYPE_DICT
  | .assign _ _ right => ast_infer_type right
  | .call _ _ => .AST_TYPE_UNKNOWN
  | .index _ _ => .AST_TYPE_UNKNOWN
  | .slice _ _ _ _ => .AST_TYPE_UNKNOWN
  | .member _ _ => .AST_TYPE_UNKNOWN

/-! ## What is left to the old back end -/

def is_string : ast_expr → Bool
  | .string _ => true
  | _ => false

mutual

def ast_cgen_requires_legacy_expr : ast_expr → Bool
  | .list _ => true
  | .tuple _ => true
  | .dict _ => true
  | .index _ _ => true
  | .slice _ _ _ _ => true
  | .member _ _ => true
  | .unary _ operand => ast_cgen_requires_legacy_expr operand
  | .binary _ left right =>
    ast_cgen_requires_legacy_expr left || ast_cgen_requires_legacy_expr right
  | .call callee args => ast_cgen_requires_legacy_expr callee || ast_cgen_requires_legacy_args args
  | .assign _ left right =>
    is_string right || ast_cgen_requires_legacy_expr left || ast_cgen_requires_legacy_expr right
  | .number _ => false
  | .string _ => false
  | .identifier _ => false

def ast_cgen_requires_legacy_args : List ast_expr → Bool
  | [] => false
  | arg :: args => ast_cgen_requires_legacy_expr arg || ast_cgen_requires_legacy_args args

end

mutual

def ast_cgen_requires_legacy_stmt : ast_stmt → Bool
  | .expr_stmt left => ast_cgen_requires_legacy_expr left
  | .return_stmt none => false
  | .return_stmt (some left) => ast_cgen_requires_legacy_expr left
  | .if_stmt left body else_body =>
    ast_cgen_requires_legacy_expr left || ast_cgen_requires_legacy_stmts body
      || ast_cgen_requires_legacy_body else_body
  | .while_stmt left body => ast_cgen_requires_legacy_expr left || ast_cgen_requires_legacy_body body
  | .for_stmt _ right body => ast_cgen_requires_legacy_expr right || ast_cgen_requires_legacy_body body
  | .function _ _ body => ast_cgen_requires_legacy_body body
  | .break_stmt => false
  | .continue_stmt => false
  | .pass_stmt => false

def ast_cgen_requires_legacy_stmts : List ast_stmt → Bool
  | [] => false
  | stmt :: stmts => ast_cgen_requires_legacy_stmt stmt || ast_cgen_requires_legacy_stmts stmts

def ast_cgen_requires_legacy_body : Option (List ast_stmt) → Bool
  | none => false
  | some stmts => ast_cgen_requires_legacy_stmts stmts

end

/-! ## The text -/

structure ast_cgen_t where
  buf : String
  indent : ℕ
  error : Bool

/-- The size of the buffer. -/
def CGEN_CAP : ℕ := 1024 * 1024

def ast_cgen_t.append (g : ast_cgen_t) (text : String) : ast_cgen_t :=
  if g.error then g
  else if CGEN_CAP ≤ g.buf.length + text.length + 1 then { g with error := true }
  else { g with buf := g.buf ++ text }

def ast_cgen_t.fail (g : ast_cgen_t) : ast_cgen_t := { g with error := true }

/-- `n` times the same. -/
def ast_cgen_t.repeat (text : String) : ℕ → ast_cgen_t → ast_cgen_t
  | 0, g => g
  | n + 1, g => ast_cgen_t.repeat text n (g.append text)

def ast_cgen_indent (g : ast_cgen_t) : ast_cgen_t := ast_cgen_t.repeat "    " g.indent g

def ast_cgen_t.deeper (g : ast_cgen_t) : ast_cgen_t := { g with indent := g.indent + 1 }

def ast_cgen_t.back (g : ast_cgen_t) : ast_cgen_t := { g with indent := g.indent - 1 }

def ast_cgen_escape (c : Char) : String :=
  if c = '\\' ∨ c = '"' then "\\" ++ c.toString
  else if c = '\n' then "\\n"
  else if c = '\r' then "\\r"
  else if c = '\t' then "\\t"
  else c.toString

def ast_cgen_chars : List Char → ast_cgen_t → ast_cgen_t
  | [], g => g
  | c :: cs, g => ast_cgen_chars cs (g.append (ast_cgen_escape c))

def ast_cgen_string_literal (s : String) (g : ast_cgen_t) : ast_cgen_t :=
  (ast_cgen_chars s.toList (g.append "\"")).append "\""

mutual

def ast_cgen_expr : ast_expr → ast_cgen_t → ast_cgen_t
  | .number text, g => g.append text
  | .string text, g => ast_cgen_string_literal text g
  | .identifier text, g =>
    if text = "True" then g.append "1"
    else if text = "False" ∨ text = "None" then g.append "0"
    else g.append text
  | .unary op operand, g =>
    if op = "not" then (ast_cgen_expr operand (g.append "(!(")).append "))"
    else (ast_cgen_expr operand (g.append ("(" ++ op))).append ")"
  | .binary op left right, g =>
    if op = "and" then
      (ast_cgen_expr right ((ast_cgen_expr left (g.append "(")).append " && ")).append ")"
    else if op = "or" then
      (ast_cgen_expr right ((ast_cgen_expr left (g.append "(")).append " || ")).append ")"
    else if op = "//" then
      (ast_cgen_expr right ((ast_cgen_expr left (g.append "((long long)(")).append
        ") / (long long)(")).append "))"
    else if op = "**" then
      (ast_cgen_expr right ((ast_cgen_expr left (g.append "pow(")).append ",")).append ")"
    else if op = "in" ∨ op = "is" then
      (ast_cgen_expr right ((ast_cgen_expr left (g.append "(")).append " == ")).append ")"
    else
      (ast_cgen_expr right ((ast_cgen_expr left (g.append "(")).append (" " ++ op ++ " "))).append ")"
  | .call callee args, g => (ast_cgen_args args ((ast_cgen_expr callee g).append "(")).append ")"
  | .index left right, g =>
    (ast_cgen_expr right ((ast_cgen_expr left g).append "[")).append "]"
  | .member left text, g => (ast_cgen_expr left g).append ("." ++ text)
  | .list _, g => g.fail
  | .tuple _, g => g.fail
  | .dict _, g => g.fail
  | .slice _ _ _ _, g => g.fail
  | .assign _ _ _, g => g.fail

/-- The arguments of a call, with commas between them. -/
def ast_cgen_args : List ast_expr → ast_cgen_t → ast_cgen_t
  | [], g => g
  | [arg], g => ast_cgen_expr arg g
  | arg :: args, g => ast_cgen_args args ((ast_cgen_expr arg g).append ", ")

end

/-- An argument of `range`, 0 where there is none. -/
def ast_cgen_range_arg (args : List ast_expr) (i : ℕ) (g : ast_cgen_t) : ast_cgen_t :=
  match args[i]? with
  | none => g.append "0"
  | some arg => ast_cgen_expr arg g

/-- The head of the loop over `range(args)`. -/
def ast_cgen_range (v : String) (args : List ast_expr) (g : ast_cgen_t) : ast_cgen_t :=
  let g := g.append ("for (int64_t " ++ v ++ " = ")
  let g := if args.length = 1 then g.append ("0; " ++ v ++ " < ")
    else (ast_cgen_range_arg args 0 g).append ("; " ++ v ++ " < ")
  let g := if args.length = 1 then ast_cgen_range_arg args 0 g else ast_cgen_range_arg args 1 g
  g.append ("; " ++ v ++ "++) \x7b\n")

/-- The conversions of `printf`. -/
def ast_cgen_formats : List ast_expr → ast_cgen_t → ast_cgen_t
  | [], g => g
  | [arg], g => g.append (if is_string arg then "%s" else "%lld")
  | arg :: args, g =>
    ast_cgen_formats args ((g.append (if is_string arg then "%s" else "%lld")).append " ")

/-- The values that `printf` prints. -/
def ast_cgen_printed : List ast_expr → ast_cgen_t → ast_cgen_t
  | [], g => g
  | arg :: args, g => ast_cgen_printed args (ast_cgen_expr arg (g.append ", "))

def ast_cgen_print (args : List ast_expr) (g : ast_cgen_t) : ast_cgen_t :=
  let g := (ast_cgen_formats args (g.append "printf(\"")).append "\\n\""
  (ast_cgen_printed args g).append ");\n"

/-- The statement that is one expression. -/
def ast_cgen_expr_stmt : ast_expr → ast_cgen_t → ast_cgen_t
  | .assign op left right, g =>
    (ast_cgen_expr right ((ast_cgen_expr left g).append (" " ++ op ++ " "))).append ";\n"
  | .call (.identifier "print") args, g => ast_cgen_print args g
  | e, g => (ast_cgen_expr e g).append ";\n"

mutual

def ast_cgen_stmt : ast_stmt → ast_cgen_t → ast_cgen_t
  | .expr_stmt left, g => if g.error then g else ast_cgen_expr_stmt left (ast_cgen_indent g)
  | .if_stmt left body else_body, g =>
    if g.error then g
    else
      let g := (ast_cgen_expr left ((ast_cgen_indent g).append "if (")).append ") \x7b\n"
      let g := (ast_cgen_indent (ast_cgen_block body g.deeper).back).append "\x7d"
      let g := match else_body with
        | none => g
        | some stmts =>
          (ast_cgen_indent (ast_cgen_block stmts (g.append " else \x7b\n").deeper).back).append "\x7d"
      g.append "\n"
  | .while_stmt left body, g =>
    if g.error then g
    else
      let g := (ast_cgen_expr left ((ast_cgen_indent g).append "while (")).append ") \x7b\n"
      (ast_cgen_indent (ast_cgen_body body g.deeper).back).append "\x7d\n"
  | .for_stmt v (.call (.identifier "range") args) body, g =>
    if g.error then g
    else
      let g := ast_cgen_range v args (ast_cgen_indent g)
      (ast_cgen_indent (ast_cgen_body body g.deeper).back).append "\x7d\n"
  | .for_stmt _ _ _, g => if g.error then g else (ast_cgen_indent g).fail
  | .return_stmt none, g => if g.error then g else ((ast_cgen_indent g).append "return").append ";\n"
  | .return_stmt (some left), g =>
    if g.error then g
    else (ast_cgen_expr left (((ast_cgen_indent g).append "return").append " ")).append ";\n"
  | .break_stmt, g => if g.error then g else (ast_cgen_indent g).append "break;\n"
  | .continue_stmt, g => if g.error then g else (ast_cgen_indent g).append "continue;\n"
  | .pass_stmt, g => if g.error then g else (ast_cgen_indent g).append ";\n"
  | .function _ _ _, g => if g.error then g else (ast_cgen_indent g).fail

/-- The statements of a block, without the functions among them. -/
def ast_cgen_block : List ast_stmt → ast_cgen_t → ast_cgen_t
  | [], g => g
  | .function _ _ _ :: stmts, g => ast_cgen_block stmts g
  | stmt :: stmts, g => ast_cgen_block stmts (ast_cgen_stmt stmt g)

def ast_cgen_body : Option (List ast_stmt) → ast_cgen_t → ast_cgen_t
  | none, g => g
  | some stmts, g => ast_cgen_block stmts g

end

/-- The parameters of a function. -/
def ast_cgen_params : List String → ast_cgen_t → ast_cgen_t
  | [], g => g
  | [arg], g => g.append ("int64_t " ++ arg)
  | arg :: args, g => ast_cgen_params args ((g.append ("int64_t " ++ arg)).append ", ")

def ast_cgen_function : ast_stmt → ast_cgen_t → ast_cgen_t
  | .function text args body, g =>
    let g := (ast_cgen_params args (g.append ("static int64_t " ++ text ++ "("))).append ") \x7b\n"
    let g := ast_cgen_indent (ast_cgen_body body { g with indent := 1 })
    { g.append "return 0;\n\x7d\n\n" with indent := 0 }
  | _, g => g

def ast_cgen_functions : List ast_stmt → ast_cgen_t → ast_cgen_t
  | [], g => g
  | stmt :: stmts, g => ast_cgen_functions stmts (ast_cgen_function stmt g)

/-- The names that fit into `names`. -/
def MAX_GLOBALS : ℕ := 512

/-- `snprintf(names[(*count)++], 64, "%.*s", 63, text)`. -/
def truncate_name (text : String) : String := String.ofList (text.toList.take 63)

/-- Enter a name that is not there yet. -/
def ast_cgen_add_global (text : String) (names : List String) : List String :=
  if MAX_GLOBALS ≤ names.length then names
  else if text ∈ names then names
  else names ++ [truncate_name text]

mutual

def ast_cgen_collect_globals : ast_stmt → List String → List String
  | .expr_stmt (.assign _ (.identifier text) _), names => ast_cgen_add_global text names
  | .if_stmt _ body else_body, names =>
    ast_cgen_collect_body else_body (ast_cgen_collect_block body names)
  | .while_stmt _ body, names => ast_cgen_collect_body body names
  | .for_stmt _ _ body, names => ast_cgen_collect_body body names
  | _, names => names

def ast_cgen_collect_block : List ast_stmt → List String → List String
  | [], names => names
  | stmt :: stmts, names => ast_cgen_collect_block stmts (ast_cgen_collect_globals stmt names)

def ast_cgen_collect_body : Option (List ast_stmt) → List String → List String
  | none, names => names
  | some stmts, names => ast_cgen_collect_block stmts names

end

def ast_cgen_declare : List String → ast_cgen_t → ast_cgen_t
  | [], g => g
  | name :: names, g => ast_cgen_declare names (g.append ("    int64_t " ++ name ++ " = 0;\n"))

def ast_cgen_program (program : List ast_stmt) (g : ast_cgen_t) : ast_cgen_t :=
  let g := g.append "#include <stdio.h>\n#include <stdint.h>\n#include <math.h>\n\n"
  let g := (ast_cgen_functions program g).append "int main(void) \x7b\n"
  let g := ast_cgen_declare (ast_cgen_collect_block program []) g
  (ast_cgen_block program { g with indent := 1 }).append "    return 0;\n\x7d\n"

/-- The program text, or `none` where the generator failed. -/
def ast_emit_c_source (program : List ast_stmt) : Option String :=
  let g := ast_cgen_program program ⟨"", 0, false⟩
  if g.error then none else some g.buf

/-- What is compiled once the source is parsed: the text, or the code of the failure. -/
def ast_compile_program (program : List ast_stmt) : Except ℕ String :=
  if ast_cgen_requires_legacy_stmts program then .error 2
  else
    match ast_emit_c_source program with
    | none => .error 2
    | some text => .ok text

def ast_compile_source (source : List Char) : Except ℕ String :=
  match ast_parse_program (some AST_MAX_NODES) source with
  | some (some program, parser) =>
    if parser.error then .error 1 else ast_compile_program program
  | _ => .error 1

end SysInC.Pythont
