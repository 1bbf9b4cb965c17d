/-
The expressions of the generated C program of `src/pythont/pythont.c` as expressions of C.

`lower_expr` is what the emitted text means by the grammar of C; `expr_text_lower` says that
the text is the printed form of it.
-/
import SysInC.CExpr
import SysInC.PythontText

set_option autoImplicit false

namespace SysInC.Pythont

def lower_binary (op : String) (left right : c_expr) : c_expr :=
  if op = "and" then .binary "&&" left right
  else if op = "or" then .binary "||" left right
  else if op = "//" then .binary "/" (.cast left) (.cast right)
  else if op = "**" then .pow left right
  else if op = "in" ∨ op = "is" then .binary "==" left right
  else .binary op left right

def lower_name (text : String) : c_expr :=
  if text = "True" then .number "1"
  else if text = "False" ∨ text = "None" then .number "0"
  else .ident text

mutual

/-- The expression of C. The nodes that `ast_compile_source` refuses have none. -/
def lower_expr : ast_expr → c_expr
  | .number text => .number text
  | .string text => .string (chars_text text.toList)
  | .identifier text => lower_name text
  | .unary op operand => .unary (if op = "not" then "!" else op) (lower_expr operand)
  | .binary op left right => lower_binary op (lower_expr left) (lower_expr right)
  | .call callee args => .call (lower_expr callee) (lower_args args)
  | .list _ => .ident ""
  | .tuple _ => .ident ""
  | .dict _ => .ident ""
  | .index _ _ => .ident ""
  | .slice _ _ _ _ => .ident ""
  | .member _ _ => .ident ""
  | .assign _ _ _ => .ident ""

def lower_args : List ast_expr → List c_expr
  | [] => []
  | arg :: args => lower_expr arg :: lower_args args

end

mutual

/-- Is there an expression of C? The operators are those of the grammar. -/
def ast_expr.lowers : ast_expr → Bool
  | .number _ => true
  | .string _ => true
  | .identifier _ => true
  | .unary op operand => op != "!" && operand.lowers
  | .binary _ left right => left.lowers && right.lowers
  | .call callee args => callee.lowers && args_lower args
  | .list _ => false
  | .tuple _ => false
  | .dict _ => false
  | .index _ _ => false
  | .slice _ _ _ _ => false
  | .member _ _ => false
  | .assign _ _ _ => false

def args_lower : List ast_expr → Bool
  | [] => true
  | arg :: args => arg.lowers && args_lower args

end

theorem lower_name_text (text : String) : (lower_name text).text = name_text text := by
  unfold lower_name name_text
  split_ifs <;> rfl

theorem lower_binary_text (op : String) (left right : c_expr) :
    (lower_binary op left right).text = binary_text op left.text right.text := by
  unfold lower_binary binary_text
  split_ifs
  · rfl
  · rfl
  · rw [c_expr.text, c_expr.text, c_expr.text]
    apply String.toList_inj.mp
    simp
  · rfl
  · rfl
  · rfl

mutual

/-- The emitted text is the printed expression. -/
theorem expr_text_lower : ∀ e : ast_expr, e.lowers = true → expr_text e = (lower_expr e).text
  | .number text, _ => rfl
  | .string text, _ => rfl
  | .identifier text, _ => (lower_name_text text).symm
  | .unary op operand, h => by
    obtain ⟨hop, hoperand⟩ := Bool.and_eq_true_iff.mp h
    rw [expr_text, lower_expr, c_expr.text, expr_text_lower operand hoperand]
    by_cases hnot : op = "not"
    · rw [if_pos hnot, if_pos hnot, if_pos rfl]
    · rw [if_neg hnot, if_neg hnot, if_neg (by simpa using hop)]
  | .binary op left right, h => by
    obtain ⟨hleft, hright⟩ := Bool.and_eq_true_iff.mp h
    rw [expr_text, lower_expr, lower_binary_text, expr_text_lower left hleft,
      expr_text_lower right hright]
  | .call callee args, h => by
    obtain ⟨hcallee, hargs⟩ := Bool.and_eq_true_iff.mp h
    rw [expr_text, lower_expr, c_expr.text, expr_text_lower callee hcallee,
      args_text_lower args hargs]

theorem args_text_lower : ∀ args : List ast_expr, args_lower args = true →
    args_text args = c_args_text (lower_args args)
  | [], _ => rfl
  | [arg], h => expr_text_lower arg (Bool.and_eq_true_iff.mp h).1
  | arg :: arg' :: args, h => by
    obtain ⟨harg, hargs⟩ := Bool.and_eq_true_iff.mp h
    have htail := args_text_lower (arg' :: args) hargs
    rw [args_text, htail, expr_text_lower arg harg]
    · rfl
    · simp

end

end SysInC.Pythont
