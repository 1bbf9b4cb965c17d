/-
The calculator's evaluator (`src/calc/calc.c`): two stacks, one pass over the characters.

Numbers are abstract. `Arith` holds what the evaluator takes from the C library and from the
variable table: the value of a numeral, of a variable, of an operator and of a function; the last
three may refuse. What the stacks hold is in `State`, the top first.
-/
import Mathlib.Data.List.Basic
import Mathlib.Tactic.Common

set_option autoImplicit false

namespace SysInC.Calc

abbrev CALC_MAX_EXPR : ℕ := 1024
abbrev CALC_MAX_STACK : ℕ := 128
abbrev CALC_MAX_STEPS : ℕ := 2048

/-- The operators among the token types. -/
inductive BinOp where
  | plus | minus | mul | div | mod | pow | band | bor | bxor | shl | shr
deriving DecidableEq

/-- What `op_stack` holds; `func_stack` has the name of a function. -/
inductive Pending where
  | op (o : BinOp)
  | lparen
  | func (name : List Char)
deriving DecidableEq

def op_precedence : BinOp → ℕ
  | .bor => 1
  | .bxor => 2
  | .band => 3
  | .shl => 4
  | .shr => 4
  | .plus => 5
  | .minus => 5
  | .mul => 6
  | .div => 6
  | .mod => 6
  | .pow => 7

def is_right_associative (type : BinOp) : Bool := type == .pow

/-- The arithmetic that the evaluator is given. -/
structure Arith (V : Type) where
  zero : V
  number : List Char → V
  calc_get_var : List Char → Option V
  apply_math_op : BinOp → V → V → Option V
  apply_func_op : List Char → V → Option V

/-- Why there is no result: a stack is full, where the source asserts or writes behind its end, or
`return false`. -/
inductive Stop where
  | overflow
  | failed
deriving DecidableEq

structure State (V : Type) where
  val_stack : List V
  op_stack : List Pending
  expect_unary : Bool

/-! ## Characters -/

def isdigit (c : Char) : Bool := '0' ≤ c && c ≤ '9'
def isalpha (c : Char) : Bool := ('a' ≤ c && c ≤ 'z') || ('A' ≤ c && c ≤ 'Z')
def isalnum (c : Char) : Bool := isdigit c || isalpha c
def is_word (c : Char) : Bool := isalnum c || c == '_'
def is_blank (c : Char) : Bool := c == ' ' || c == '\t'
def isspace (c : Char) : Bool := c == ' ' || ('\t' ≤ c && c ≤ '\r')

/-- A digit of the base. -/
def digit_of (base : ℕ) (c : Char) : Bool :=
  if base = 16 then isdigit c || ('a' ≤ c && c ≤ 'f') || ('A' ≤ c && c ≤ 'F')
  else '0' ≤ c && c.toNat < '0'.toNat + base

/-- How many of the characters are digits of the base. -/
def count_digits (base : ℕ) (p : List Char) : ℕ := (p.takeWhile (digit_of base)).length

/-- A sign, or none. -/
def sign_end : List Char → ℕ
  | '+' :: _ => 1
  | '-' :: _ => 1
  | _ => 0

/-- The second prefix that `strtoull` takes for base 16. -/
def marker_end (base : ℕ) : List Char → ℕ
  | '0' :: x :: d :: _ =>
      if base = 16 ∧ (x = 'x' ∨ x = 'X') ∧ digit_of 16 d = true then 2 else 0
  | _ => 0

/-- Where `strtoull` stops: blanks, a sign, a prefix, and digits, or nothing when there are no
digits. -/
def strtoull_end (base : ℕ) (p : List Char) : ℕ :=
  let spaces := (p.takeWhile isspace).length
  let front := spaces + sign_end (p.drop spaces)
  let front := front + marker_end base (p.drop front)
  let digits := count_digits base (p.drop front)
  if digits = 0 then 0 else front + digits

/-- A dot and digits. -/
def frac_end : List Char → ℕ
  | '.' :: p => 1 + count_digits 10 p
  | _ => 0

/-- An exponent with a digit at least. -/
def exp_end : List Char → ℕ
  | c :: p =>
      let digits := count_digits 10 (p.drop (sign_end p))
      if (c = 'e' ∨ c = 'E') ∧ digits ≠ 0 then 1 + sign_end p + digits else 0
  | [] => 0

/-- Where `strtod` stops when a digit, or a dot and a digit, stand in front. -/
def strtod_end (p : List Char) : ℕ :=
  let int := count_digits 10 p
  let frac := frac_end (p.drop int)
  int + frac + exp_end (p.drop (int + frac))

/-- The letters behind a leading zero, with their bases. -/
def base_of (c : Char) : Option ℕ :=
  if c = 'x' ∨ c = 'X' then some 16
  else if c = 'b' ∨ c = 'B' then some 2
  else if c = 'o' ∨ c = 'O' then some 8
  else none

/-- The length of the numeral that stands in front. -/
def number_end (p : List Char) : ℕ :=
  match p with
  | '0' :: c :: q =>
      match base_of c with
      | some base => 2 + strtoull_end base q
      | none => strtod_end p
  | _ => strtod_end p

/-! ## Tokens -/

/-- What one turn of the loop reads. -/
inductive Tok where
  | num (numeral : List Char)
  | var (name : List Char)
  | func (name : List Char)
  | lparen
  | rparen
  | op (o : BinOp)
deriving DecidableEq

def is_open (c : Char) : Bool := c == '(' || c == '[' || c == '{'
def is_close (c : Char) : Bool := c == ')' || c == ']' || c == '}'

/-- The operator in front and what is behind it. -/
def read_op : List Char → Option (BinOp × List Char)
  | '<' :: '<' :: p => some (.shl, p)
  | '>' :: '>' :: p => some (.shr, p)
  | '+' :: p => some (.plus, p)
  | '-' :: p => some (.minus, p)
  | '*' :: p => some (.mul, p)
  | 'x' :: p => some (.mul, p)
  | '/' :: p => some (.div, p)
  | '%' :: p => some (.mod, p)
  | '^' :: p => some (.pow, p)
  | '&' :: p => some (.band, p)
  | '|' :: p => some (.bor, p)
  | _ => none

/-- A name and, behind spaces, the parenthesis that makes it a function. -/
def read_name (p : List Char) : Tok × List Char :=
  let name := (p.takeWhile is_word).take 31
  match (p.drop name.length).dropWhile (· == ' ') with
  | '(' :: q => (.func name, q)
  | q => (.var name, q)

def starts_number : List Char → Bool
  | c :: p => isdigit c || (c == '.' && (p.head?.map isdigit).getD false)
  | [] => false

/-- The token in front; `none` is an invalid symbol. -/
def read_token (p : List Char) : Option (Tok × List Char) :=
  if starts_number p = true then some (.num (p.take (number_end p)), p.drop (number_end p))
  else match p with
  | [] => none
  | c :: q =>
      if isalpha c || c == '_' then some (read_name p)
      else if is_open c then some (.lparen, q)
      else if is_close c then some (.rparen, q)
      else (read_op p).map fun r => (.op r.1, r.2)

/-! ## The stacks -/

variable {V : Type}

def push_val (v : V) (st : State V) : Except Stop (State V) :=
  if st.val_stack.length < CALC_MAX_STACK then .ok { st with val_stack := v :: st.val_stack }
  else .error .overflow

def push_op (o : Pending) (st : State V) : Except Stop (State V) :=
  if st.op_stack.length < CALC_MAX_STACK then .ok { st with op_stack := o :: st.op_stack }
  else .error .overflow

/-- `return false` where there is no value. -/
def or_fail {α : Type} : Option α → Except Stop α
  | some a => .ok a
  | none => .error .failed

/-- One operator on the two values on top. -/
def apply_top (A : Arith V) (o : BinOp) : List V → Except Stop (List V)
  | b :: a :: vals => (or_fail (A.apply_math_op o a b)).map (· :: vals)
  | _ => .error .failed

/-- The loop that takes operators off the stack, up to a parenthesis and as long as `goes`. -/
def reduce_while (A : Arith V) (goes : BinOp → Bool) :
    List Pending → List V → Except Stop (List Pending × List V)
  | .op o :: ops, vals =>
      if goes o then (apply_top A o vals).bind fun vals => reduce_while A goes ops vals
      else .ok (.op o :: ops, vals)
  | ops, vals => .ok (ops, vals)

/-- Whether `top_op` is applied before `current_tok` is pushed. -/
def goes_first (current_tok top_op : BinOp) : Bool :=
  (!is_right_associative current_tok && op_precedence current_tok ≤ op_precedence top_op) ||
    (is_right_associative current_tok && op_precedence current_tok < op_precedence top_op)

def on_operator (A : Arith V) (current_tok : BinOp) (st : State V) : Except Stop (State V) :=
  (reduce_while A (goes_first current_tok) st.op_stack st.val_stack).bind fun r =>
  (push_op (.op current_tok) { st with op_stack := r.1, val_stack := r.2 }).map fun st =>
  { st with expect_unary := true }

/-- The bracket on top, or the function, goes. A closing bracket without one is passed over. -/
def close_group (A : Arith V) : List Pending → List V → Except Stop (State V)
  | .func fname :: ops, arg :: vals =>
      (or_fail (A.apply_func_op fname arg)).map fun res =>
        { op_stack := ops, val_stack := res :: vals, expect_unary := false }
  | .func _ :: _, [] => .error .failed
  | _ :: ops, vals => .ok { op_stack := ops, val_stack := vals, expect_unary := false }
  | [], vals => .ok { op_stack := [], val_stack := vals, expect_unary := false }

def on_close (A : Arith V) (st : State V) : Except Stop (State V) :=
  (reduce_while A (fun _ => true) st.op_stack st.val_stack).bind fun r => close_group A r.1 r.2

/-- One turn of the loop. A plus sign is passed over; a minus sign is the operator, with a zero in
front of it. -/
def on_token (A : Arith V) (st : State V) : Tok → Except Stop (State V)
  | .num n => (push_val (A.number n) st).map fun st => { st with expect_unary := false }
  | .var name => (or_fail (A.calc_get_var name)).bind fun v =>
      (push_val v st).map fun st => { st with expect_unary := false }
  | .func name => (push_op (.func name) st).map fun st => { st with expect_unary := true }
  | .lparen => (push_op .lparen st).map fun st => { st with expect_unary := true }
  | .rparen => on_close A st
  | .op o =>
      if o = .plus ∧ st.expect_unary = true then .ok st
      else if o = .minus ∧ st.expect_unary = true then
        (push_val A.zero st).bind fun st => on_operator A .minus st
      else on_operator A o st

/-- The one value that is left, with no bracket open. -/
def last_value : List Pending → List V → Except Stop V
  | [], [v] => .ok v
  | _, _ => .error .failed

/-- What is left on the stacks at the end. -/
def finish (A : Arith V) (st : State V) : Except Stop V :=
  (reduce_while A (fun _ => true) st.op_stack st.val_stack).bind fun r => last_value r.1 r.2

/-- The main loop; `step_guard` is what is left of `CALC_MAX_STEPS`. -/
def evaluate_loop (A : Arith V) : ℕ → List Char → State V → Except Stop V
  | 0, _, st => finish A st
  | step_guard + 1, p, st =>
      match p.dropWhile is_blank with
      | [] => finish A st
      | c :: q =>
          (or_fail (read_token (c :: q))).bind fun r =>
          (on_token A st r.1).bind fun st => evaluate_loop A step_guard r.2 st

def evaluate_expression_iterative (A : Arith V) (input_str : List Char) : Except Stop V :=
  evaluate_loop A CALC_MAX_STEPS input_str ⟨[], [], true⟩

end SysInC.Calc
