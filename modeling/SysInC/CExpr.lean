/-
Integer expressions of C: their text, their grammar and their values.

A text is cut into words and punctuators (`c_lex`) and read by precedence (`c_parse`). Values
carry their type, on a machine where `int` has 32 bits, and `long` and `long long` have 64:
operands are brought to the larger type, a result that does not fit there is undefined, and
so is a division by zero. The meaning of a called function is a parameter.

`c_expr.text` prints an expression with all its parentheses; `c_parse_text` reads it back.
-/
import Mathlib.Algebra.Ring.Int.Defs
import Mathlib.Data.List.Basic
import Mathlib.Tactic.SplitIfs
import Mathlib.Tactic.Common

set_option autoImplicit false

namespace SysInC

/-! ## Expressions -/

inductive c_expr where
  | number (text : String)
  | string (text : String)
  | ident (name : String)
  | unary (op : String) (operand : c_expr)
  | binary (op : String) (left right : c_expr)
  /-- A conversion to `long long`. -/
  | cast (operand : c_expr)
  | call (callee : c_expr) (args : List c_expr)
  | pow (base exponent : c_expr)

/-! ## Values -/

inductive c_type where
  | int
  | long
  | long_long
  deriving DecidableEq

/-- The values of a type are those from `-bound` up to `bound - 1`. -/
def c_type.bound : c_type → ℤ
  | .int => 2 ^ 31
  | .long => 2 ^ 63
  | .long_long => 2 ^ 63

def c_type.Fits (t : c_type) (v : ℤ) : Prop := -t.bound ≤ v ∧ v < t.bound

instance (t : c_type) (v : ℤ) : Decidable (t.Fits v) := inferInstanceAs (Decidable (_ ∧ _))

/-- The type to which two operands are brought. -/
def c_type.common : c_type → c_type → c_type
  | .int, t => t
  | t, .int => t
  | .long, .long => .long
  | _, _ => .long_long

/-- A result of the type `t`, where it fits. -/
def c_result (t : c_type) (v : ℤ) : Option (c_type × ℤ) :=
  if t.Fits v then some (t, v) else none

def c_digit (c : Char) : ℤ := (c.toNat - '0'.toNat : ℕ)

/-- What a row of digits means in the base. -/
def c_digits (base : ℤ) (digits : List Char) : ℤ :=
  digits.foldl (fun v c => v * base + c_digit c) 0

/-- An integer constant: octal with a leading zero, else decimal; of the first type it fits.
An octal constant beyond `int` would be unsigned, and is left out. -/
def c_number (text : String) : Option (c_type × ℤ) :=
  let digits := text.toList
  let v := c_digits (if digits.head? = some '0' then 8 else 10) digits
  if digits = [] ∨ ¬digits.all Char.isDigit ∨
      (digits.head? = some '0' ∧ ¬digits.all fun c => c.toNat < '8'.toNat) then none
  else if c_type.int.Fits v then some (.int, v)
  else if digits.head? = some '0' then none
  else c_result .long v

def c_truth (b : Prop) [Decidable b] : c_type × ℤ := (.int, if b then 1 else 0)

/-- An operator on two values that are both evaluated. -/
def c_arith (op : String) (a b : c_type × ℤ) : Option (c_type × ℤ) :=
  let t := a.1.common b.1
  if op = "+" then c_result t (a.2 + b.2)
  else if op = "-" then c_result t (a.2 - b.2)
  else if op = "*" then c_result t (a.2 * b.2)
  else if op = "/" then if b.2 = 0 then none else c_result t (a.2.tdiv b.2)
  else if op = "%" then
    if b.2 = 0 ∨ ¬t.Fits (a.2.tdiv b.2) then none else c_result t (a.2.tmod b.2)
  else if op = "==" then some (c_truth (a.2 = b.2))
  else if op = "!=" then some (c_truth (a.2 ≠ b.2))
  else if op = "<" then some (c_truth (a.2 < b.2))
  else if op = "<=" then some (c_truth (a.2 ≤ b.2))
  else if op = ">" then some (c_truth (b.2 < a.2))
  else if op = ">=" then some (c_truth (b.2 ≤ a.2))
  else none

def c_negate (op : String) (a : c_type × ℤ) : Option (c_type × ℤ) :=
  if op = "-" then c_result a.1 (-a.2)
  else if op = "+" then some a
  else if op = "~" then c_result a.1 (-a.2 - 1)
  else if op = "!" then some (c_truth (a.2 = 0))
  else none

mutual

/-- The value of an expression. `funs` are the called functions, with results of type `long`;
the variables in `env` have that type too. -/
def c_eval (funs : String → List ℤ → Option ℤ) (env : String → Option ℤ) :
    c_expr → Option (c_type × ℤ)
  | .number text => c_number text
  | .string _ => none
  | .ident name => (env name).map fun v => (.long, v)
  | .unary op operand => (c_eval funs env operand).bind (c_negate op)
  | .binary op left right =>
    (c_eval funs env left).bind fun a =>
      if op = "&&" then
        if a.2 = 0 then some (.int, 0)
        else (c_eval funs env right).map fun b => c_truth (b.2 ≠ 0)
      else if op = "||" then
        if a.2 ≠ 0 then some (.int, 1)
        else (c_eval funs env right).map fun b => c_truth (b.2 ≠ 0)
      else (c_eval funs env right).bind (c_arith op a)
  | .cast operand => (c_eval funs env operand).map fun a => (.long_long, a.2)
  | .call (.ident name) args =>
    ((c_eval_args funs env args).bind (funs name)).map fun v => (.long, v)
  | .call _ _ => none
  | .pow base exponent =>
    (c_eval funs env base).bind fun a => (c_eval funs env exponent).bind fun b =>
      (funs "pow" [a.2, b.2]).map fun v => (.long, v)

def c_eval_args (funs : String → List ℤ → Option ℤ) (env : String → Option ℤ) :
    List c_expr → Option (List ℤ)
  | [] => some []
  | arg :: args =>
    (c_eval funs env arg).bind fun a => (c_eval_args funs env args).map fun vs => a.2 :: vs

end

/-! ## Tokens -/

inductive c_token where
  | word (w : String)
  | punct (p : String)
  deriving DecidableEq

def c_is_word (c : Char) : Bool := c.isAlphanum || c == '_'

def c_is_space (c : Char) : Bool := c == ' ' || c == '\n' || c == '\t' || c == '\r'

/-- The punctuators of two characters. -/
def c_is_pair (c c' : Char) : Bool :=
  (c, c') ∈ [('=', '='), ('!', '='), ('<', '='), ('>', '='), ('&', '&'), ('|', '|'), ('<', '<'),
    ('>', '>'), ('+', '+'), ('-', '-'), ('-', '>'), ('+', '='), ('-', '='), ('*', '='), ('/', '='),
    ('%', '='), ('&', '='), ('|', '='), ('^', '=')]

/-- Does the character go on with the token that was begun? -/
def c_joins (pending : List Char) (c : Char) : Bool :=
  match pending with
  | [] => false
  | p :: ps => if c_is_word p then c_is_word c else ps = [] && c_is_pair p c

/-- The token that was begun. -/
def c_flush : List Char → List c_token
  | [] => []
  | c :: cs =>
    if c_is_word c then [.word (String.ofList (c :: cs))] else [.punct (String.ofList (c :: cs))]

/-- The tokens of a text behind what was read of the current one. -/
def c_scan (pending : List Char) : List Char → List c_token
  | [] => c_flush pending
  | c :: cs =>
    if c_joins pending c then c_scan (pending ++ [c]) cs
    else c_flush pending ++ c_scan (if c_is_space c then [] else [c]) cs

def c_lex (text : List Char) : List c_token := c_scan [] text

/-! ## The grammar -/

/-- The keywords of the language. -/
def c_keywords : List String :=
  ["auto", "break", "case", "char", "const", "continue", "default", "do", "double", "else", "enum",
    "extern", "float", "for", "goto", "if", "inline", "int", "long", "register", "restrict", "return",
    "short", "signed", "sizeof", "static", "struct", "switch", "typedef", "union", "unsigned", "void",
    "volatile", "while", "_Alignas", "_Alignof", "_Atomic", "_Bool", "_Complex", "_Generic",
    "_Imaginary", "_Noreturn", "_Static_assert", "_Thread_local"]

def c_prec (op : String) : Option ℕ :=
  if op = "||" then some 1
  else if op = "&&" then some 2
  else if op = "==" ∨ op = "!=" then some 3
  else if op ∈ ["<", "<=", ">", ">="] then some 4
  else if op = "+" ∨ op = "-" then some 5
  else if op ∈ ["*", "/", "%"] then some 6
  else none

def c_unary_ops : List String := ["-", "+", "~", "!"]

/-- A constant or a name. -/
def c_word_expr (w : String) : Option c_expr :=
  if (w.toList.headD ' ').isDigit then
    if (c_number w).isSome then some (.number w) else none
  else if w ∈ c_keywords then none
  else some (.ident w)

mutual

/-- An operand: a word, something in parentheses, or that behind a unary operator. -/
def c_unary : ℕ → List c_token → Option (c_expr × List c_token)
  | 0, _ => none
  | _ + 1, [] => none
  | _ + 1, .word w :: ts => (c_word_expr w).map fun e => (e, ts)
  | n + 1, .punct p :: ts =>
    if p ∈ c_unary_ops then (c_unary n ts).map fun r => (.unary p r.1, r.2)
    else if p = "(" then
      if ts.take 3 = [.word "long", .word "long", .punct ")"] then
        (c_unary n (ts.drop 3)).map fun r => (.cast r.1, r.2)
      else
        match c_binary n 0 ts with
        | some (e, .punct p' :: ts') => if p' = ")" then some (e, ts') else none
        | _ => none
    else none

/-- Operands with operators of at least the precedence between them. -/
def c_binary : ℕ → ℕ → List c_token → Option (c_expr × List c_token)
  | 0, _, _ => none
  | n + 1, min_prec, ts => (c_unary n ts).bind fun r => c_climb n min_prec r.1 r.2

def c_climb : ℕ → ℕ → c_expr → List c_token → Option (c_expr × List c_token)
  | 0, _, _, _ => none
  | _ + 1, _, left, [] => some (left, [])
  | _ + 1, _, left, .word w :: ts => some (left, .word w :: ts)
  | n + 1, min_prec, left, .punct p :: ts =>
    match c_prec p with
    | none => some (left, .punct p :: ts)
    | some prec =>
      if prec < min_prec then some (left, .punct p :: ts)
      else (c_binary n (prec + 1) ts).bind fun r => c_climb n min_prec (.binary p left r.1) r.2

end

/-- The expression that the text is, as a whole. -/
def c_parse (text : List Char) : Option c_expr :=
  match c_binary (6 * (c_lex text).length + 6) 0 (c_lex text) with
  | some (e, []) => some e
  | _ => none

/-- The value of a text. -/
def c_value (funs : String → List ℤ → Option ℤ) (env : String → Option ℤ) (text : String) :
    Option (c_type × ℤ) :=
  (c_parse text.toList).bind (c_eval funs env)

/-! ## Printing -/

mutual

/-- The text of an expression, with all its parentheses. A string is the text between its
quotes. -/
def c_expr.text : c_expr → String
  | .number text => text
  | .string text => "\"" ++ text ++ "\""
  | .ident name => name
  | .unary op operand =>
    if op = "!" then "(!(" ++ operand.text ++ "))" else "(" ++ op ++ operand.text ++ ")"
  | .binary op left right => "(" ++ left.text ++ (" " ++ op ++ " ") ++ right.text ++ ")"
  | .cast operand => "(long long)(" ++ operand.text ++ ")"
  | .call callee args => callee.text ++ "(" ++ c_args_text args ++ ")"
  | .pow base exponent => "pow(" ++ base.text ++ "," ++ exponent.text ++ ")"

def c_args_text : List c_expr → String
  | [] => ""
  | [arg] => arg.text
  | arg :: args => arg.text ++ ", " ++ c_args_text args

end

/-- A word as the tokenizer takes it. -/
def c_plain_word (w : String) : Prop := w.toList ≠ [] ∧ ∀ c ∈ w.toList, c_is_word c = true

/-- Expressions of constants, names and operators. -/
inductive c_expr.Plain : c_expr → Prop where
  | number {text : String} (hword : c_plain_word text)
      (hdigit : (text.toList.headD ' ').isDigit = true) : Plain (.number text)
  | ident {name : String} (hword : c_plain_word name)
      (hdigit : (name.toList.headD ' ').isDigit = false) : Plain (.ident name)
  | unary {op : String} {operand : c_expr} (hop : op ∈ c_unary_ops) (h : Plain operand) :
      Plain (.unary op operand)
  | binary {op : String} {left right : c_expr} (hop : (c_prec op).isSome = true)
      (hleft : Plain left) (hright : Plain right) : Plain (.binary op left right)
  | cast {operand : c_expr} (h : Plain operand) : Plain (.cast operand)

/-- No name is a keyword and no constant is too large. -/
def c_expr.readable : c_expr → Bool
  | .number text => (c_number text).isSome
  | .ident name => name ∉ c_keywords
  | .unary _ operand => operand.readable
  | .binary _ left right => left.readable && right.readable
  | .cast operand => operand.readable
  | .string _ => false
  | .call _ _ => false
  | .pow _ _ => false

/-- The tokens of the text. -/
def c_expr.tokens : c_expr → List c_token
  | .number text => [.word text]
  | .ident name => [.word name]
  | .unary op operand =>
    if op = "!" then
      .punct "(" :: .punct "!" :: .punct "(" :: (operand.tokens ++ [.punct ")", .punct ")"])
    else .punct "(" :: .punct op :: (operand.tokens ++ [.punct ")"])
  | .binary op left right =>
    .punct "(" :: (left.tokens ++ .punct op :: (right.tokens ++ [.punct ")"]))
  | .cast operand =>
    .punct "(" :: .word "long" :: .word "long" :: .punct ")" :: .punct "("
      :: (operand.tokens ++ [.punct ")"])
  | .string _ => []
  | .call _ _ => []
  | .pow _ _ => []

/-! ## The tokens of a printed expression -/

section

-- the equations of these are made here, and not by each proof anew
attribute [local simp] c_scan c_joins c_flush c_expr.text c_expr.tokens c_unary c_climb
  c_expr.readable c_is_pair c_prec

end

/-- The token that was begun does not go on in `cs`. -/
def TokenEnds (pending cs : List Char) : Prop := ∀ c ∈ cs.head?, c_joins pending c = false

theorem c_scan_flush {pending cs : List Char} (h : TokenEnds pending cs) :
    c_scan pending cs = c_flush pending ++ c_scan [] cs := by
  cases cs with
  | nil => simp [c_scan, c_flush]
  | cons c cs =>
      have hc : ¬c_joins pending c = true := by simp [h c (by simp)]
      have hnil : ¬c_joins [] c = true := by simp [c_joins]
      rw [c_scan, c_scan, if_neg hc, if_neg hnil]
      rfl

theorem c_scan_word {p : Char} (hp : c_is_word p = true) (ps w cs : List Char)
    (hw : ∀ c ∈ w, c_is_word c = true) :
    c_scan (p :: ps) (w ++ cs) = c_scan (p :: (ps ++ w)) cs := by
  induction w generalizing ps with
  | nil => simp
  | cons c w ih =>
      have hjoin : c_joins (p :: ps) c = true := by simp [c_joins, hp, hw c (by simp)]
      rw [List.cons_append, c_scan, if_pos hjoin, List.cons_append,
        ih _ fun c hc => hw c (by simp [hc])]
      simp

/-- A word, where it ends. -/
theorem c_scan_plain_word {w : String} (hw : c_plain_word w) {cs : List Char}
    (hcs : ∀ c ∈ cs.head?, c_is_word c = false) :
    c_scan [] (w.toList ++ cs) = .word w :: c_scan [] cs := by
  obtain ⟨hne, hall⟩ := hw
  obtain ⟨p, ps, hlist⟩ := List.exists_cons_of_ne_nil hne
  have hp : c_is_word p = true := hall p (by simp [hlist])
  have hspace : c_is_space p = false := by
    by_contra hspace
    simp only [c_is_space, Bool.not_eq_false, Bool.or_eq_true, beq_iff_eq] at hspace
    rcases hspace with ((rfl | rfl) | rfl) | rfl <;> exact absurd hp (by decide)
  have hnil : ¬c_joins [] p = true := by simp [c_joins]
  rw [hlist, List.cons_append, c_scan, if_neg hnil, hspace, if_neg (by simp),
    c_scan_word hp [] ps cs fun c hc => hall c (by simp [hlist, hc]), c_scan_flush]
  · simp only [c_flush, List.nil_append, hp, if_true]
    rw [← hlist, String.ofList_toList]
    rfl
  · intro c hc
    simp [c_joins, hp, hcs c hc]

/-- A punctuator, where it ends. -/
theorem c_scan_punct {c : Char} {cs : List Char} (hword : c_is_word c = false)
    (hspace : c_is_space c = false) (hcs : ∀ c' ∈ cs.head?, c_is_pair c c' = false) :
    c_scan [] (c :: cs) = .punct (String.ofList [c]) :: c_scan [] cs := by
  have hnil : ¬c_joins [] c = true := by simp [c_joins]
  rw [c_scan, if_neg hnil, hspace, if_neg (by simp), c_scan_flush]
  · simp [c_flush, hword]
  · intro c' hc'
    simp [c_joins, hword, hcs c' hc']

theorem c_scan_space (cs : List Char) : c_scan [] (' ' :: cs) = c_scan [] cs := rfl

theorem c_scan_open (cs : List Char) : c_scan [] ('(' :: cs) = .punct "(" :: c_scan [] cs :=
  c_scan_punct rfl rfl (by simp [c_is_pair])

theorem c_scan_close (cs : List Char) : c_scan [] (')' :: cs) = .punct ")" :: c_scan [] cs :=
  c_scan_punct rfl rfl (by simp [c_is_pair])

theorem c_scan_cast (cs : List Char) :
    c_scan [] ("(long long)(".toList ++ cs)
      = .punct "(" :: .word "long" :: .word "long" :: .punct ")" :: .punct "(" :: c_scan [] cs := by
  have hopen := c_scan_open cs
  rw [← hopen]
  rfl

/-- An operator between blanks. -/
theorem c_scan_op {op : String} (hop : (c_prec op).isSome = true) (cs : List Char) :
    c_scan [] (op.toList ++ ' ' :: cs) = .punct op :: c_scan [] cs := by
  unfold c_prec at hop
  simp only [List.mem_cons, List.not_mem_nil, or_false] at hop
  split_ifs at hop with h1 h2 h3 h4 h5 h6
  · subst h1; rfl
  · subst h2; rfl
  · rcases h3 with rfl | rfl <;> rfl
  · rcases h4 with rfl | rfl | rfl | rfl <;> rfl
  · rcases h5 with rfl | rfl <;> rfl
  · rcases h6 with rfl | rfl | rfl <;> rfl
  · cases hop

/-- A printed expression starts with a parenthesis or a word. -/
theorem c_expr.Plain.text_head {e : c_expr} (h : e.Plain) :
    ∃ c cs, e.text.toList = c :: cs ∧ (c = '(' ∨ c_is_word c = true) := by
  cases h with
  | number hword _ | ident hword _ =>
      obtain ⟨c, cs, hlist⟩ := List.exists_cons_of_ne_nil hword.1
      exact ⟨c, cs, hlist, Or.inr (hword.2 c (by simp [hlist]))⟩
  | unary hop h =>
      rw [c_expr.text]
      split_ifs
      · exact ⟨'(', _, by simp; rfl, Or.inl rfl⟩
      · exact ⟨'(', _, by simp; rfl, Or.inl rfl⟩
  | binary hop hleft hright => exact ⟨'(', _, by simp [c_expr.text]; rfl, Or.inl rfl⟩
  | cast h => exact ⟨'(', _, by simp [c_expr.text]; rfl, Or.inl rfl⟩

theorem not_pair_of_head {c c' : Char} (h : c' = '(' ∨ c_is_word c' = true) :
    c_is_pair c c' = false := by
  by_contra hpair
  simp only [c_is_pair, Bool.not_eq_false, decide_eq_true_eq, List.mem_cons, Prod.mk.injEq,
    List.not_mem_nil, or_false] at hpair
  have hc' : c' = '=' ∨ c' = '&' ∨ c' = '|' ∨ c' = '<' ∨ c' = '>' ∨ c' = '+' ∨ c' = '-' := by
    tauto
  rcases hc' with rfl | rfl | rfl | rfl | rfl | rfl | rfl <;> exact absurd h (by decide)

/-- The tokens of a printed expression, in front of what cannot go on with its last one. -/
theorem c_scan_text {e : c_expr} (h : e.Plain) (cs : List Char)
    (hcs : ∀ c ∈ cs.head?, c_is_word c = false) :
    c_scan [] (e.text.toList ++ cs) = e.tokens ++ c_scan [] cs := by
  induction h generalizing cs with
  | number hword _ => exact c_scan_plain_word hword hcs
  | ident hword _ => exact c_scan_plain_word hword hcs
  | @unary op operand hop h ih =>
      have hclose : ∀ cs' : List Char, ∀ c ∈ (')' :: cs').head?, c_is_word c = false := by
        intro cs' c hc
        cases hc
        rfl
      by_cases hnot : op = "!"
      · subst hnot
        have htext : (c_expr.unary "!" operand).text.toList ++ cs
            = '(' :: '!' :: '(' :: (operand.text.toList ++ ')' :: ')' :: cs) := by
          simp [c_expr.text]
        rw [htext, c_scan_open, c_scan_punct rfl rfl (by simp [c_is_pair]), c_scan_open,
          ih _ (hclose _), c_scan_close, c_scan_close]
        simp [c_expr.tokens]
      · obtain ⟨c, hc, hword, hspace⟩ : ∃ c, op.toList = [c] ∧ c_is_word c = false
            ∧ c_is_space c = false := by
          simp only [c_unary_ops, List.mem_cons, List.not_mem_nil, or_false] at hop
          rcases hop with rfl | rfl | rfl | rfl
          · exact ⟨'-', rfl, rfl, rfl⟩
          · exact ⟨'+', rfl, rfl, rfl⟩
          · exact ⟨'~', rfl, rfl, rfl⟩
          · exact absurd rfl hnot
        have hop' : String.ofList [c] = op := by rw [← hc, String.ofList_toList]
        have htext : (c_expr.unary op operand).text.toList ++ cs
            = '(' :: c :: (operand.text.toList ++ ')' :: cs) := by
          simp [c_expr.text, hnot, hc]
        -- no pair: the operand begins with a word or a parenthesis
        obtain ⟨c', cs', hhead, hc'⟩ := h.text_head
        have hpair : ∀ d ∈ (operand.text.toList ++ ')' :: cs).head?, c_is_pair c d = false := by
          intro d hd
          rw [hhead] at hd
          cases hd
          exact not_pair_of_head hc'
        rw [htext, c_scan_open, c_scan_punct hword hspace hpair, ih _ (hclose _), c_scan_close,
          hop']
        simp [c_expr.tokens, hnot]
  | @binary op left right hop hleft hright ihl ihr =>
      have htext : (c_expr.binary op left right).text.toList ++ cs
          = '(' :: (left.text.toList
            ++ ' ' :: (op.toList ++ ' ' :: (right.text.toList ++ ')' :: cs))) := by
        simp [c_expr.text]
      rw [htext, c_scan_open, ihl _ (by simp; decide), c_scan_space, c_scan_op hop,
        ihr _ (by simp; decide), c_scan_close]
      simp [c_expr.tokens]
  | @cast operand h ih =>
      have htext : (c_expr.cast operand).text.toList ++ cs
          = "(long long)(".toList ++ (operand.text.toList ++ ')' :: cs) := by
        simp [c_expr.text]
      rw [htext, c_scan_cast, ih _ (by simp; decide), c_scan_close]
      simp [c_expr.tokens]

/-! ## Reading a printed expression -/

theorem c_climb_close (n min_prec : ℕ) (e : c_expr) (ts : List c_token) :
    c_climb (n + 1) min_prec e (.punct ")" :: ts) = some (e, .punct ")" :: ts) := rfl

theorem c_climb_nil (n min_prec : ℕ) (e : c_expr) :
    c_climb (n + 1) min_prec e [] = some (e, []) := rfl

/-- Behind its opening parenthesis no expression reads as the conversion. -/
theorem c_expr.Plain.not_cast {e : c_expr} (h : e.Plain) (p : String) (ts : List c_token) :
    (e.tokens ++ .punct p :: ts).take 3 ≠ [.word "long", .word "long", .punct ")"] := by
  cases h with
  | number _ _ | ident _ _ => simp [c_expr.tokens]
  | unary hop h =>
      rw [c_expr.tokens]
      split_ifs <;> simp
  | binary hop hleft hright => simp [c_expr.tokens]
  | cast h => simp [c_expr.tokens]

/-- What the parser makes of the tokens of `e`, followed by others. -/
def ReadsTokens (n : ℕ) (e : c_expr) (ts : List c_token) : Prop :=
  c_unary n (e.tokens ++ ts) = if e.readable then some (e, ts) else none

/-- What stands in parentheses and is read up to the closing one. -/
theorem c_unary_group {e : c_expr} {b : Bool} {n : ℕ} {inside ts : List c_token}
    (hcast : inside.take 3 ≠ [.word "long", .word "long", .punct ")"])
    (he : c_binary n 0 inside = if b then some (e, .punct ")" :: ts) else none) :
    c_unary (n + 1) (.punct "(" :: inside) = if b then some (e, ts) else none := by
  have hops : ¬"(" ∈ c_unary_ops := by decide
  rw [c_unary, if_neg hops, if_pos rfl, if_neg hcast, he]
  cases b <;> simp

/-- An operand that is all there is up to the closing parenthesis. -/
theorem c_binary_operand {e : c_expr} {b : Bool} {n : ℕ} {inside ts : List c_token} (hn : 0 < n)
    (he : c_unary n inside = if b then some (e, .punct ")" :: ts) else none) :
    c_binary (n + 1) 0 inside = if b then some (e, .punct ")" :: ts) else none := by
  obtain ⟨n, rfl⟩ : ∃ m, n = m + 1 := ⟨n - 1, by omega⟩
  rw [c_binary, he]
  cases b
  · rfl
  · simp [c_climb_close]

/-- The printed expression is read as itself, unless it has a keyword for a name or a constant
that is too large: then it is not read at all. -/
theorem c_unary_tokens {e : c_expr} (h : e.Plain) (n : ℕ) (ts : List c_token)
    (hn : 6 * e.tokens.length ≤ n) : ReadsTokens n e ts := by
  induction h generalizing n ts with
  | @number text hword hdigit =>
      simp only [c_expr.tokens, List.length_cons, List.length_nil] at hn
      obtain ⟨n, rfl⟩ : ∃ m, n = m + 1 := ⟨n - 1, by omega⟩
      have hexpr : c_word_expr text
          = if (c_number text).isSome then some (.number text) else none := by
        rw [c_word_expr, if_pos hdigit]
      by_cases hfits : (c_number text).isSome = true <;>
        simp [ReadsTokens, c_expr.tokens, c_unary, hexpr, c_expr.readable, hfits]
  | @ident name hword hdigit =>
      simp only [c_expr.tokens, List.length_cons, List.length_nil] at hn
      obtain ⟨n, rfl⟩ : ∃ m, n = m + 1 := ⟨n - 1, by omega⟩
      have hexpr : c_word_expr name = if name ∈ c_keywords then none else some (.ident name) := by
        rw [c_word_expr, if_neg (by simp only [hdigit, Bool.false_eq_true, not_false_eq_true])]
      by_cases hkey : name ∈ c_keywords <;>
        simp [ReadsTokens, c_expr.tokens, c_unary, hexpr, c_expr.readable, hkey]
  | @unary op operand hop h ih =>
      have hread : (c_expr.unary op operand).readable = operand.readable := rfl
      by_cases hnot : op = "!"
      · subst hnot
        have htokens : (c_expr.unary "!" operand).tokens ++ ts = .punct "(" :: .punct "!"
            :: .punct "(" :: (operand.tokens ++ .punct ")" :: .punct ")" :: ts) := by
          simp [c_expr.tokens]
        have hlen : (c_expr.unary "!" operand).tokens.length = operand.tokens.length + 5 := by
          simp [c_expr.tokens]
        obtain ⟨n, rfl⟩ : ∃ m, n = m + 6 := ⟨n - 6, by omega⟩
        rw [ReadsTokens, htokens, hread]
        -- `!` goes before a group of its own
        have hinner := c_unary_group (h.not_cast ")" (.punct ")" :: ts))
          (c_binary_operand (by omega) (ih (n + 1) (.punct ")" :: .punct ")" :: ts) (by omega)))
        refine c_unary_group (by simp) (c_binary_operand (by omega) ?_)
        rw [c_unary, if_pos hop, hinner]
        cases operand.readable <;> rfl
      · have htokens : (c_expr.unary op operand).tokens ++ ts
            = .punct "(" :: .punct op :: (operand.tokens ++ .punct ")" :: ts) := by
          simp [c_expr.tokens, hnot]
        have hlen : (c_expr.unary op operand).tokens.length = operand.tokens.length + 3 := by
          simp [c_expr.tokens, hnot]
        obtain ⟨n, rfl⟩ : ∃ m, n = m + 3 := ⟨n - 3, by omega⟩
        rw [ReadsTokens, htokens, hread]
        refine c_unary_group (by simp) (c_binary_operand (by omega) ?_)
        rw [c_unary, if_pos hop, ih n _ (by omega)]
        cases operand.readable <;> rfl
  | @binary op left right hop hleft hright ihl ihr =>
      have htokens : (c_expr.binary op left right).tokens ++ ts = .punct "(" :: (left.tokens
          ++ .punct op :: (right.tokens ++ .punct ")" :: ts)) := by
        simp [c_expr.tokens]
      have hlen : (c_expr.binary op left right).tokens.length
          = left.tokens.length + right.tokens.length + 3 := by
        simp [c_expr.tokens]
        omega
      obtain ⟨n, rfl⟩ : ∃ m, n = m + 6 := ⟨n - 6, by omega⟩
      rw [ReadsTokens, htokens, c_expr.readable]
      refine c_unary_group (hleft.not_cast _ _) ?_
      rw [c_binary, ihl (n + 4) _ (by omega)]
      -- the left operand is read first; if it is not readable, nothing is
      obtain ⟨prec, hprec⟩ := Option.isSome_iff_exists.mp hop
      cases hl : left.readable with
      | false => rfl
      | true =>
          rw [if_pos rfl, Option.bind_some, c_climb, hprec]
          simp only [Nat.not_lt_zero, if_false]
          rw [c_binary, ihr (n + 2) _ (by omega)]
          cases hr : right.readable with
          | false => rfl
          | true => simp [c_climb_close]
  | @cast operand h ih =>
      have htokens : (c_expr.cast operand).tokens ++ ts = .punct "(" :: .word "long"
          :: .word "long" :: .punct ")" :: .punct "(" :: (operand.tokens ++ .punct ")" :: ts) := by
        simp [c_expr.tokens]
      have hlen : (c_expr.cast operand).tokens.length = operand.tokens.length + 6 := by
        simp [c_expr.tokens]
      have hread : (c_expr.cast operand).readable = operand.readable := rfl
      have hops : ¬"(" ∈ c_unary_ops := by decide
      obtain ⟨n, rfl⟩ : ∃ m, n = m + 6 := ⟨n - 6, by omega⟩
      have hinner := c_unary_group (h.not_cast ")" ts)
        (c_binary_operand (by omega) (ih (n + 3) (.punct ")" :: ts) (by omega)))
      rw [ReadsTokens, htokens, hread, c_unary, if_neg hops, if_pos rfl]
      simp only [List.take_succ_cons, List.take_zero, if_true, List.drop_succ_cons, List.drop_zero,
        hinner]
      cases operand.readable <;> rfl

/-- **Round trip.** The text of an expression is read as that expression, or not at all. -/
theorem c_parse_text {e : c_expr} (h : e.Plain) :
    c_parse e.text.toList = if e.readable then some e else none := by
  have hlex : c_lex e.text.toList = e.tokens := by
    have hscan := c_scan_text h [] (by simp)
    rw [List.append_nil] at hscan
    rw [c_lex, hscan]
    exact List.append_nil _
  have hread := c_unary_tokens h (6 * e.tokens.length + 5) [] (by omega)
  rw [ReadsTokens, List.append_nil] at hread
  rw [c_parse, hlex, c_binary, hread]
  cases e.readable
  · rfl
  · rw [if_pos rfl, Option.bind_some, c_climb_nil]
    rfl

end SysInC
