/-
The text that the back end of `src/pythont/pythont.c` generates, as a function of the tree.

`Emits g g' s` says that a generator went from `g` to `g'` and left `s` in the buffer. Where
the buffer is too small, or the tree has a node without a translation, only the error flag is
left. `ast_emit_c_source_eq` is the whole program; every statement on its top level has its
translation in there.
-/
import SysInC.PythontCgen

set_option autoImplicit false

namespace SysInC.Pythont

/-! ## Texts -/

def text_repeat (text : String) : ℕ → String
  | 0 => ""
  | n + 1 => text ++ text_repeat text n

def indent_text (n : ℕ) : String := text_repeat "    " n

def chars_text : List Char → String
  | [] => ""
  | c :: cs => ast_cgen_escape c ++ chars_text cs

def string_text (s : String) : String := "\"" ++ chars_text s.toList ++ "\""

/-- What stands between the operands of a binary operator, in front of them and behind them. -/
def binary_text (op : String) (left right : String) : String :=
  if op = "and" then "(" ++ left ++ " && " ++ right ++ ")"
  else if op = "or" then "(" ++ left ++ " || " ++ right ++ ")"
  else if op = "//" then "((long long)(" ++ left ++ ") / (long long)(" ++ right ++ "))"
  else if op = "**" then "pow(" ++ left ++ "," ++ right ++ ")"
  else if op = "in" ∨ op = "is" then "(" ++ left ++ " == " ++ right ++ ")"
  else "(" ++ left ++ (" " ++ op ++ " ") ++ right ++ ")"

def name_text (text : String) : String :=
  if text = "True" then "1" else if text = "False" ∨ text = "None" then "0" else text

mutual

def expr_text : ast_expr → String
  | .number text => text
  | .string text => string_text text
  | .identifier text => name_text text
  | .unary op operand =>
    if op = "not" then "(!(" ++ expr_text operand ++ "))" else "(" ++ op ++ expr_text operand ++ ")"
  | .binary op left right => binary_text op (expr_text left) (expr_text right)
  | .call callee args => expr_text callee ++ "(" ++ args_text args ++ ")"
  | .index left right => expr_text left ++ "[" ++ expr_text right ++ "]"
  | .member left text => expr_text left ++ ("." ++ text)
  | .list _ => ""
  | .tuple _ => ""
  | .dict _ => ""
  | .slice _ _ _ _ => ""
  | .assign _ _ _ => ""

def args_text : List ast_expr → String
  | [] => ""
  | [arg] => expr_text arg
  | arg :: args => expr_text arg ++ ", " ++ args_text args

end

def range_arg_text (args : List ast_expr) (i : ℕ) : String :=
  match args[i]? with
  | none => "0"
  | some arg => expr_text arg

def range_text (v : String) (args : List ast_expr) : String :=
  "for (int64_t " ++ v ++ " = "
    ++ (if args.length = 1 then "0; " ++ v ++ " < "
      else range_arg_text args 0 ++ ("; " ++ v ++ " < "))
    ++ (if args.length = 1 then range_arg_text args 0 else range_arg_text args 1)
    ++ ("; " ++ v ++ "++) \x7b\n")

def format_text (arg : ast_expr) : String := if is_string arg then "%s" else "%lld"

def formats_text : List ast_expr → String
  | [] => ""
  | [arg] => format_text arg
  | arg :: args => format_text arg ++ " " ++ formats_text args

def printed_text : List ast_expr → String
  | [] => ""
  | arg :: args => ", " ++ expr_text arg ++ printed_text args

def expr_stmt_text : ast_expr → String
  | .assign op left right => expr_text left ++ (" " ++ op ++ " ") ++ expr_text right ++ ";\n"
  | .call (.identifier "print") args =>
    "printf(\"" ++ formats_text args ++ "\\n\"" ++ printed_text args ++ ");\n"
  | e => expr_text e ++ ";\n"

mutual

/-- A statement with `n` levels of indentation. -/
def stmt_text (n : ℕ) : ast_stmt → String
  | .expr_stmt left => indent_text n ++ expr_stmt_text left
  | .if_stmt left body none =>
    indent_text n ++ "if (" ++ expr_text left ++ ") \x7b\n" ++ block_text (n + 1) body
      ++ indent_text n ++ "\x7d" ++ "\n"
  | .if_stmt left body (some else_body) =>
    indent_text n ++ "if (" ++ expr_text left ++ ") \x7b\n" ++ block_text (n + 1) body
      ++ indent_text n ++ "\x7d" ++ (" else \x7b\n" ++ block_text (n + 1) else_body
      ++ indent_text n ++ "\x7d") ++ "\n"
  | .while_stmt left body =>
    indent_text n ++ "while (" ++ expr_text left ++ ") \x7b\n" ++ body_text (n + 1) body
      ++ indent_text n ++ "\x7d\n"
  | .for_stmt v (.call (.identifier "range") args) body =>
    indent_text n ++ range_text v args ++ body_text (n + 1) body ++ indent_text n ++ "\x7d\n"
  | .for_stmt _ _ _ => ""
  | .return_stmt none => indent_text n ++ "return" ++ ";\n"
  | .return_stmt (some left) => indent_text n ++ "return" ++ " " ++ expr_text left ++ ";\n"
  | .break_stmt => indent_text n ++ "break;\n"
  | .continue_stmt => indent_text n ++ "continue;\n"
  | .pass_stmt => indent_text n ++ ";\n"
  | .function _ _ _ => ""

def block_text (n : ℕ) : List ast_stmt → String
  | [] => ""
  | stmt :: stmts => stmt_text n stmt ++ block_text n stmts

def body_text (n : ℕ) : Option (List ast_stmt) → String
  | none => ""
  | some stmts => block_text n stmts

end

def params_text : List String → String
  | [] => ""
  | [arg] => "int64_t " ++ arg
  | arg :: args => "int64_t " ++ arg ++ ", " ++ params_text args

def function_text : ast_stmt → String
  | .function text args body =>
    "static int64_t " ++ text ++ "(" ++ params_text args ++ ") \x7b\n" ++ body_text 1 body
      ++ indent_text 1 ++ "return 0;\n\x7d\n\n"
  | _ => ""

def functions_text : List ast_stmt → String
  | [] => ""
  | stmt :: stmts => function_text stmt ++ functions_text stmts

def declare_text : List String → String
  | [] => ""
  | name :: names => "    int64_t " ++ name ++ " = 0;\n" ++ declare_text names

def program_text (program : List ast_stmt) : String :=
  "#include <stdio.h>\n#include <stdint.h>\n#include <math.h>\n\n" ++ functions_text program
    ++ "int main(void) \x7b\n" ++ declare_text (ast_cgen_collect_block program [])
    ++ block_text 1 program ++ "    return 0;\n\x7d\n"

/-! ## The generators leave these texts -/

structure Emits (g g' : ast_cgen_t) (s : String) : Prop where
  error : g'.error = false → g.error = false
  buf : g'.error = false → g'.buf = g.buf ++ s
  indent : g'.indent = g.indent

theorem Emits.refl (g : ast_cgen_t) : Emits g g "" := ⟨id, fun _ => String.append_empty.symm, rfl⟩

theorem Emits.trans {g g' g'' : ast_cgen_t} {s s' : String} (h : Emits g g' s)
    (h' : Emits g' g'' s') : Emits g g'' (s ++ s') where
  error := fun he => h.error (h'.error he)
  buf := fun he => by rw [h'.buf he, h.buf (h'.error he), String.append_assoc]
  indent := h'.indent.trans h.indent

theorem append_emits (g : ast_cgen_t) (s : String) : Emits g (g.append s) s := by
  unfold ast_cgen_t.append
  by_cases herr : g.error = true
  · rw [if_pos herr]
    exact ⟨id, fun h => absurd herr (by simp [h]), rfl⟩
  rw [if_neg herr]
  split_ifs
  · exact ⟨fun h => absurd h (by simp), fun h => absurd h (by simp), rfl⟩
  · exact ⟨id, fun _ => rfl, rfl⟩

/-- Where the generator fails nothing is promised about the text. -/
theorem fail_emits (g : ast_cgen_t) (s : String) : Emits g g.fail s :=
  ⟨fun h => absurd h (by simp [ast_cgen_t.fail]), fun h => absurd h (by simp [ast_cgen_t.fail]), rfl⟩

/-- One more piece of text. -/
theorem Emits.append {g g' : ast_cgen_t} {s : String} (h : Emits g g' s) (s' : String) :
    Emits g (g'.append s') (s ++ s') :=
  h.trans (append_emits g' s')

theorem Emits.fail {g g' : ast_cgen_t} {s : String} (h : Emits g g' s) (s' : String) :
    Emits g g'.fail s' :=
  ⟨fun he => absurd he (by simp [ast_cgen_t.fail]), fun he => absurd he (by simp [ast_cgen_t.fail]),
    h.indent⟩

theorem repeat_emits (text : String) (n : ℕ) (g : ast_cgen_t) :
    Emits g (ast_cgen_t.repeat text n g) (text_repeat text n) := by
  induction n generalizing g with
  | zero => exact Emits.refl g
  | succ n ih => exact (append_emits g text).trans (ih _)

theorem ast_cgen_indent_emits (g : ast_cgen_t) :
    Emits g (ast_cgen_indent g) (indent_text g.indent) :=
  repeat_emits _ _ _

theorem ast_cgen_chars_emits (cs : List Char) (g : ast_cgen_t) :
    Emits g (ast_cgen_chars cs g) (chars_text cs) := by
  induction cs generalizing g with
  | nil => exact Emits.refl g
  | cons c cs ih => exact (append_emits g _).trans (ih _)

mutual

theorem ast_cgen_expr_emits : ∀ (e : ast_expr) (g : ast_cgen_t),
    Emits g (ast_cgen_expr e g) (expr_text e)
  | .number text, g => append_emits g text
  | .string text, g => ((append_emits g _).trans (ast_cgen_chars_emits _ _)).append _
  | .identifier text, g => by
    rw [ast_cgen_expr, expr_text, name_text]
    split_ifs <;> exact append_emits g _
  | .unary op operand, g => by
    rw [ast_cgen_expr, expr_text]
    split_ifs
    · exact ((append_emits g _).trans (ast_cgen_expr_emits operand _)).append _
    · exact ((append_emits g _).trans (ast_cgen_expr_emits operand _)).append _
  | .binary op left right, g => by
    have hpieces : ∀ s1 s2 s3 : String, Emits g
        ((ast_cgen_expr right ((ast_cgen_expr left (g.append s1)).append s2)).append s3)
        (s1 ++ expr_text left ++ s2 ++ expr_text right ++ s3) := fun s1 s2 s3 =>
      ((((append_emits g s1).trans (ast_cgen_expr_emits left _)).append s2).trans
        (ast_cgen_expr_emits right _)).append s3
    rw [ast_cgen_expr, expr_text, binary_text]
    split_ifs <;> exact hpieces _ _ _
  | .call callee args, g =>
    (((ast_cgen_expr_emits callee g).append _).trans (ast_cgen_args_emits args _)).append _
  | .index left right, g =>
    (((ast_cgen_expr_emits left g).append _).trans (ast_cgen_expr_emits right _)).append _
  | .member left text, g => (ast_cgen_expr_emits left g).append _
  | .list _, g => fail_emits g _
  | .tuple _, g => fail_emits g _
  | .dict _, g => fail_emits g _
  | .slice _ _ _ _, g => fail_emits g _
  | .assign _ _ _, g => fail_emits g _

theorem ast_cgen_args_emits : ∀ (args : List ast_expr) (g : ast_cgen_t),
    Emits g (ast_cgen_args args g) (args_text args)
  | [], g => Emits.refl g
  | [arg], g => ast_cgen_expr_emits arg g
  | arg :: arg' :: args, g =>
    ((ast_cgen_expr_emits arg g).append _).trans (ast_cgen_args_emits (arg' :: args) _)

end

theorem ast_cgen_range_arg_emits (args : List ast_expr) (i : ℕ) (g : ast_cgen_t) :
    Emits g (ast_cgen_range_arg args i g) (range_arg_text args i) := by
  unfold ast_cgen_range_arg range_arg_text
  cases args[i]? with
  | none => exact append_emits g _
  | some arg => exact ast_cgen_expr_emits arg g

theorem ast_cgen_range_emits (v : String) (args : List ast_expr) (g : ast_cgen_t) :
    Emits g (ast_cgen_range v args g) (range_text v args) := by
  unfold ast_cgen_range range_text
  by_cases hone : args.length = 1
  · simp only [if_pos hone]
    exact (((append_emits g _).append _).trans (ast_cgen_range_arg_emits args 0 _)).append _
  · simp only [if_neg hone]
    refine Emits.append (Emits.trans ?_ (ast_cgen_range_arg_emits args 1 _)) _
    exact (append_emits g _).trans ((ast_cgen_range_arg_emits args 0 _).append _)

theorem ast_cgen_formats_emits : ∀ (args : List ast_expr) (g : ast_cgen_t),
    Emits g (ast_cgen_formats args g) (formats_text args)
  | [], g => Emits.refl g
  | [_], g => append_emits g _
  | _ :: arg' :: args, g =>
    ((append_emits g _).append _).trans (ast_cgen_formats_emits (arg' :: args) _)

theorem ast_cgen_printed_emits (args : List ast_expr) (g : ast_cgen_t) :
    Emits g (ast_cgen_printed args g) (printed_text args) := by
  induction args generalizing g with
  | nil => exact Emits.refl g
  | cons arg args ih => exact ((append_emits g _).trans (ast_cgen_expr_emits arg _)).trans (ih _)

theorem ast_cgen_expr_stmt_emits (e : ast_expr) (g : ast_cgen_t) :
    Emits g (ast_cgen_expr_stmt e g) (expr_stmt_text e) := by
  unfold ast_cgen_expr_stmt
  split
  · exact (((ast_cgen_expr_emits _ g).append _).trans (ast_cgen_expr_emits _ _)).append _
  · refine Emits.append (Emits.trans ?_ (ast_cgen_printed_emits _ _)) _
    exact ((append_emits g _).trans (ast_cgen_formats_emits _ _)).append _
  · next hassign hprint =>
      rw [expr_stmt_text]
      · exact (ast_cgen_expr_emits _ g).append _
      · exact hassign
      · exact hprint

/-- A part that is indented once more, between the head of its statement and the end. -/
theorem Emits.nest {g g' g'' : ast_cgen_t} {s s' : String} (h : Emits g g' s)
    (h' : Emits g'.deeper g'' s') : Emits g (ast_cgen_indent g''.back) (s ++ s' ++ indent_text g.indent) := by
  have hback : Emits g' g''.back s' := by
    refine ⟨h'.error, h'.buf, ?_⟩
    have hindent := h'.indent
    simp only [ast_cgen_t.back, ast_cgen_t.deeper] at hindent ⊢
    omega
  have hindent := ast_cgen_indent_emits g''.back
  rw [hback.indent, h.indent] at hindent
  exact (h.trans hback).trans hindent

/-- A statement does nothing once there was an error. -/
theorem Emits.unless_error {g g' : ast_cgen_t} {s : String} (h : Emits g g' s) :
    Emits g (if g.error then g else g') s := by
  by_cases herr : g.error = true
  · rw [if_pos herr]
    exact ⟨id, fun he => absurd herr (by simp [he]), rfl⟩
  · rw [if_neg herr]
    exact h

theorem Emits.deeper {g g' : ast_cgen_t} {s : String} (h : Emits g g' s) {n : ℕ}
    (hn : g.indent = n) : g'.deeper.indent = n + 1 := by
  rw [ast_cgen_t.deeper, h.indent, hn]

mutual

theorem ast_cgen_stmt_emits : ∀ (stmt : ast_stmt) (g : ast_cgen_t) (n : ℕ), g.indent = n →
    Emits g (ast_cgen_stmt stmt g) (stmt_text n stmt)
  | .expr_stmt left, g, n, hn => by
    subst hn
    rw [ast_cgen_stmt, stmt_text]
    exact ((ast_cgen_indent_emits g).trans (ast_cgen_expr_stmt_emits left _)).unless_error
  | .if_stmt left body else_body, g, n, hn => by
    rw [ast_cgen_stmt]
    refine Emits.unless_error ?_
    have hhead := (((ast_cgen_indent_emits g).append "if (").trans
      (ast_cgen_expr_emits left _)).append ") \x7b\n"
    -- `nest`: the body, one level deeper, and the indentation of the brace behind it
    have hbody := (hhead.nest (ast_cgen_block_emits body _ (n + 1) (hhead.deeper hn))).append "\x7d"
    cases else_body with
    | none =>
        have hall := hbody.append "\n"
        rw [stmt_text]
        rw [hn] at hall
        exact hall
    | some else_body =>
        have hhead' := hbody.append " else \x7b\n"
        have helse := (hhead'.nest
          (ast_cgen_block_emits else_body _ (n + 1) (hhead'.deeper hn))).append "\x7d"
        have hall := helse.append "\n"
        rw [stmt_text, ← hn]
        rw [← hn] at hall
        simp only [String.append_assoc] at hall ⊢
        exact hall
  | .while_stmt left body, g, n, hn => by
    rw [ast_cgen_stmt, stmt_text]
    refine Emits.unless_error ?_
    have hhead := (((ast_cgen_indent_emits g).append "while (").trans
      (ast_cgen_expr_emits left _)).append ") \x7b\n"
    have hbody := hhead.nest (ast_cgen_body_emits body _ (n + 1) (hhead.deeper hn))
    rw [hn] at hbody
    exact hbody.append _
  | .for_stmt v right body, g, n, hn => by
    by_cases hrange : ∃ args, right = .call (.identifier "range") args
    · obtain ⟨args, rfl⟩ := hrange
      rw [ast_cgen_stmt, stmt_text]
      refine Emits.unless_error ?_
      have hhead := (ast_cgen_indent_emits g).trans (ast_cgen_range_emits v args _)
      have hbody := hhead.nest (ast_cgen_body_emits body _ (n + 1) (hhead.deeper hn))
      rw [hn] at hbody
      exact hbody.append _
    · rw [ast_cgen_stmt]
      · exact ((ast_cgen_indent_emits g).fail _).unless_error
      · exact fun args h => hrange ⟨args, h⟩
  | .return_stmt none, g, n, hn => by
    subst hn
    rw [ast_cgen_stmt, stmt_text]
    exact (((ast_cgen_indent_emits g).append _).append _).unless_error
  | .return_stmt (some left), g, n, hn => by
    subst hn
    rw [ast_cgen_stmt, stmt_text]
    exact (((((ast_cgen_indent_emits g).append _).append _).trans
      (ast_cgen_expr_emits left _)).append _).unless_error
  | .break_stmt, g, n, hn => by
    subst hn
    exact ((ast_cgen_indent_emits g).append _).unless_error
  | .continue_stmt, g, n, hn => by
    subst hn
    exact ((ast_cgen_indent_emits g).append _).unless_error
  | .pass_stmt, g, n, hn => by
    subst hn
    exact ((ast_cgen_indent_emits g).append _).unless_error
  | .function _ _ _, g, n, hn => ((ast_cgen_indent_emits g).fail _).unless_error

theorem ast_cgen_block_emits : ∀ (stmts : List ast_stmt) (g : ast_cgen_t) (n : ℕ), g.indent = n →
    Emits g (ast_cgen_block stmts g) (block_text n stmts)
  | [], g, n, hn => Emits.refl g
  | stmt :: stmts, g, n, hn => by
    rw [block_text]
    by_cases hfun : ∃ text args body, stmt = .function text args body
    · obtain ⟨text, args, body, rfl⟩ := hfun
      rw [ast_cgen_block, stmt_text, String.empty_append]
      exact ast_cgen_block_emits stmts g n hn
    · have hstmt := ast_cgen_stmt_emits stmt g n hn
      rw [ast_cgen_block]
      · exact hstmt.trans (ast_cgen_block_emits stmts _ n (hstmt.indent.trans hn))
      · exact fun text args body h => hfun ⟨text, args, body, h⟩

theorem ast_cgen_body_emits : ∀ (body : Option (List ast_stmt)) (g : ast_cgen_t) (n : ℕ),
    g.indent = n → Emits g (ast_cgen_body body g) (body_text n body)
  | none, g, _, _ => Emits.refl g
  | some stmts, g, n, hn => ast_cgen_block_emits stmts g n hn

end

theorem ast_cgen_params_emits : ∀ (args : List String) (g : ast_cgen_t),
    Emits g (ast_cgen_params args g) (params_text args)
  | [], g => Emits.refl g
  | [_], g => append_emits g _
  | _ :: arg' :: args, g =>
    ((append_emits g _).append _).trans (ast_cgen_params_emits (arg' :: args) _)

/-- The indentation in front of a piece, at the level where the generator started. -/
theorem Emits.indented {g g' : ast_cgen_t} {s : String} (h : Emits g g' s) :
    Emits g (ast_cgen_indent g') (s ++ indent_text g.indent) := by
  have hindent := ast_cgen_indent_emits g'
  rw [h.indent] at hindent
  exact h.trans hindent

/-- A generator that sets the indentation for itself. -/
theorem Emits.at_indent {g g' : ast_cgen_t} {s s' : String} {n : ℕ} (h : Emits g g' s)
    {g'' : ast_cgen_t} (h' : Emits { g' with indent := n } g'' s') :
    Emits g { g'' with indent := g.indent } (s ++ s') where
  error := fun he => h.error (h'.error he)
  buf := fun he => by
    rw [show ({ g'' with indent := g.indent } : ast_cgen_t).buf = g''.buf from rfl, h'.buf he,
      h.buf (h'.error he), String.append_assoc]
  indent := rfl

theorem append_two (a b c d : String) : a ++ (b ++ c ++ d) = a ++ b ++ c ++ d := by
  rw [← String.append_assoc, ← String.append_assoc]

theorem ast_cgen_function_emits (stmt : ast_stmt) (g : ast_cgen_t) (hg : g.indent = 0) :
    Emits g (ast_cgen_function stmt g) (function_text stmt) := by
  cases stmt with
  | function text args body =>
      have hhead := ((append_emits g ("static int64_t " ++ text ++ "(")).trans
        (ast_cgen_params_emits args _)).append ") \x7b\n"
      have hbody := (ast_cgen_body_emits body { (ast_cgen_params args
        (g.append ("static int64_t " ++ text ++ "("))).append ") \x7b\n" with indent := 1 } 1 rfl)
      have htail := hbody.indented.append "return 0;\n\x7d\n\n"
      have hall := hhead.at_indent htail
      have htext : function_text (.function text args body)
          = "static int64_t " ++ text ++ "(" ++ params_text args ++ ") \x7b\n"
            ++ (body_text 1 body ++ indent_text 1 ++ "return 0;\n\x7d\n\n") := by
        unfold function_text
        exact (append_two _ _ _ _).symm
      rw [htext]
      rw [hg] at hall
      exact hall
  | _ => exact Emits.refl g

theorem ast_cgen_functions_emits (stmts : List ast_stmt) (g : ast_cgen_t) (hg : g.indent = 0) :
    Emits g (ast_cgen_functions stmts g) (functions_text stmts) := by
  induction stmts generalizing g with
  | nil => exact Emits.refl g
  | cons stmt stmts ih =>
      have hstmt := ast_cgen_function_emits stmt g hg
      exact hstmt.trans (ih _ (hstmt.indent.trans hg))

theorem ast_cgen_declare_emits (names : List String) (g : ast_cgen_t) :
    Emits g (ast_cgen_declare names g) (declare_text names) := by
  induction names generalizing g with
  | nil => exact Emits.refl g
  | cons name names ih => exact (append_emits g _).trans (ih _)

theorem ast_cgen_program_emits (program : List ast_stmt) (g : ast_cgen_t) (hg : g.indent = 0) :
    (ast_cgen_program program g).error = false →
      (ast_cgen_program program g).buf = g.buf ++ program_text program := by
  intro herr
  have hinclude := append_emits g
    "#include <stdio.h>\n#include <stdint.h>\n#include <math.h>\n\n"
  have hfuns := (hinclude.trans
    (ast_cgen_functions_emits program _ (hinclude.indent.trans hg))).append "int main(void) \x7b\n"
  have hdecl := hfuns.trans
    (ast_cgen_declare_emits (ast_cgen_collect_block program []) _)
  have hmain := hdecl.at_indent
    ((ast_cgen_block_emits program _ 1 rfl).append "    return 0;\n\x7d\n")
  have htext : program_text program
      = "#include <stdio.h>\n#include <stdint.h>\n#include <math.h>\n\n" ++ functions_text program
        ++ "int main(void) \x7b\n" ++ declare_text (ast_cgen_collect_block program [])
        ++ (block_text 1 program ++ "    return 0;\n\x7d\n") := by
    unfold program_text
    exact String.append_assoc
  rw [htext]
  exact hmain.buf herr

/-- What is generated is the text of the program. -/
theorem ast_emit_c_source_eq {program : List ast_stmt} {text : String}
    (h : ast_emit_c_source program = some text) : text = program_text program := by
  unfold ast_emit_c_source at h
  have hbuf := ast_cgen_program_emits program ⟨"", 0, false⟩ rfl
  generalize ast_cgen_program program ⟨"", 0, false⟩ = g at h hbuf
  cases herr : g.error with
  | true =>
      rw [if_pos herr] at h
      cases h
  | false =>
      rw [if_neg (by simp [herr])] at h
      cases h
      rw [hbuf herr, String.empty_append]

/-! ## Every statement has its translation -/

/-- The translation of a statement on the top level. -/
def top_text : ast_stmt → String
  | .function text args body => function_text (.function text args body)
  | stmt => stmt_text 1 stmt

/-- `s` is somewhere in `text`. -/
def Within (s text : String) : Prop := ∃ before after, text = before ++ s ++ after

theorem Within.append_left {s text : String} (h : Within s text) (t : String) :
    Within s (t ++ text) := by
  obtain ⟨before, after, rfl⟩ := h
  exact ⟨t ++ before, after, by simp only [String.append_assoc]⟩

theorem Within.append_right {s text : String} (h : Within s text) (t : String) :
    Within s (text ++ t) := by
  obtain ⟨before, after, rfl⟩ := h
  exact ⟨before, after ++ t, by simp only [String.append_assoc]⟩

theorem Within.refl (s : String) : Within s s := ⟨"", "", by simp⟩

theorem function_text_within {stmt : ast_stmt} {stmts : List ast_stmt} (h : stmt ∈ stmts) :
    Within (function_text stmt) (functions_text stmts) := by
  induction stmts with
  | nil => cases h
  | cons stmt' stmts ih =>
      rcases List.mem_cons.mp h with rfl | h
      · exact (Within.refl _).append_right _
      · exact (ih h).append_left _

theorem stmt_text_within {n : ℕ} {stmt : ast_stmt} {stmts : List ast_stmt} (h : stmt ∈ stmts) :
    Within (stmt_text n stmt) (block_text n stmts) := by
  induction stmts with
  | nil => cases h
  | cons stmt' stmts ih =>
      rcases List.mem_cons.mp h with rfl | h
      · exact (Within.refl _).append_right _
      · exact (ih h).append_left _

/-- Every statement on the top level has its translation in the program. -/
theorem top_text_within {stmt : ast_stmt} {program : List ast_stmt} (h : stmt ∈ program) :
    Within (top_text stmt) (program_text program) := by
  have hfun := (((((function_text_within h).append_left
    "#include <stdio.h>\n#include <stdint.h>\n#include <math.h>\n\n").append_right
      "int main(void) \x7b\n").append_right (declare_text (ast_cgen_collect_block program []))
        ).append_right (block_text 1 program)).append_right "    return 0;\n\x7d\n"
  have hstmt := ((stmt_text_within (n := 1) h).append_left
    ("#include <stdio.h>\n#include <stdint.h>\n#include <math.h>\n\n" ++ functions_text program
      ++ "int main(void) \x7b\n" ++ declare_text (ast_cgen_collect_block program []))).append_right
        "    return 0;\n\x7d\n"
  cases stmt with
  | function text args body => exact hfun
  | _ => exact hstmt

end SysInC.Pythont
