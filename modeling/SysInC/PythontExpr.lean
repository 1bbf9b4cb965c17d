/-
Expressions as Python reads them, and what `ast_parse_expression` builds of their tokens.

An expression is here a tree that keeps its parentheses; `py_expr.Grammatical` are the levels of
Python's grammar, and `py_expr.ast` is the tree of `ast_node`s that stands for it. No node stands
for a chain of comparisons, for `is not` and `not in`, nor for strings side by side.

The code takes a sign or a `not` with nothing but the primary behind it, whatever operator comes
next. `built` is the tree that this leads to, and whether the parser stopped in front of a token
that it knows no operator for. It is the right tree exactly where every sign and every `not` stands
in front of a primary, a parenthesis or another sign, and nothing of what has no node occurs
(`built_iff`). `py_expr.Refused` says where there is no tree, and `py_expr.read_nodes` how many
nodes one takes (`built_counted`).
-/
import SysInC.PythontParse

set_option autoImplicit false

namespace SysInC.Pythont

/-! ## Tokens -/

/-- What a token says, without the place where it stands. -/
abbrev lexeme_t := token_type_t × String

def token_t.lexeme (t : token_t) : lexeme_t := (t.type, t.text)

def delimiter (text : String) : lexeme_t := (.TOK_DELIMITER, text)

/-! ## Expressions -/

inductive py_operator where
  | or | and | add | sub | mul | div | floordiv | mod | pow
  deriving DecidableEq

inductive py_comparison where
  | eq | ne | lt | le | gt | ge | isin | is | notin | isnot
  deriving DecidableEq

inductive py_sign where
  | plus | minus | invert | not
  deriving DecidableEq

inductive py_constant where
  | true | false | none

def py_operator.lexeme : py_operator → lexeme_t
  | .or => (.TOK_KEYWORD, "or")
  | .and => (.TOK_KEYWORD, "and")
  | .add => (.TOK_OPERATOR, "+")
  | .sub => (.TOK_OPERATOR, "-")
  | .mul => (.TOK_OPERATOR, "*")
  | .div => (.TOK_OPERATOR, "/")
  | .floordiv => (.TOK_OPERATOR, "//")
  | .mod => (.TOK_OPERATOR, "%")
  | .pow => (.TOK_OPERATOR, "**")

/-- Its first token, and the second one of `not in` and `is not`. -/
def py_comparison.lexemes : py_comparison → lexeme_t × Option lexeme_t
  | .eq => ((.TOK_OPERATOR, "=="), none)
  | .ne => ((.TOK_OPERATOR, "!="), none)
  | .lt => ((.TOK_OPERATOR, "<"), none)
  | .le => ((.TOK_OPERATOR, "<="), none)
  | .gt => ((.TOK_OPERATOR, ">"), none)
  | .ge => ((.TOK_OPERATOR, ">="), none)
  | .isin => ((.TOK_KEYWORD, "in"), none)
  | .is => ((.TOK_KEYWORD, "is"), none)
  | .notin => ((.TOK_KEYWORD, "not"), some (.TOK_KEYWORD, "in"))
  | .isnot => ((.TOK_KEYWORD, "is"), some (.TOK_KEYWORD, "not"))

def py_sign.lexeme : py_sign → lexeme_t
  | .plus => (.TOK_OPERATOR, "+")
  | .minus => (.TOK_OPERATOR, "-")
  | .invert => (.TOK_OPERATOR, "~")
  | .not => (.TOK_KEYWORD, "not")

def py_constant.text : py_constant → String
  | .true => "True"
  | .false => "False"
  | .none => "None"

/-- An expression with its parentheses. A chain of comparisons is a comparison with another one
on its left that has none. -/
inductive py_expr where
  | number (is_float : Bool) (text : String)
  | string (text : String) (more : List String)
  | name (text : String)
  | constant (c : py_constant)
  | paren (e : py_expr)
  | call (f : py_expr) (args : List py_expr) (comma : Bool)
  | index (e i : py_expr)
  | unary (op : py_sign) (e : py_expr)
  | binary (op : py_operator) (a b : py_expr)
  | compare (a : py_expr) (op : py_comparison) (b : py_expr)

/-! ## The grammar -/

/-- Disjunction, conjunction, inversion, comparison, sum, term, factor, power and primary are the
levels 0 to 8. -/
def py_operator.level : py_operator → ℕ
  | .or => 0
  | .and => 1
  | .add | .sub => 4
  | .mul | .div | .floordiv | .mod => 5
  | .pow => 7

/-- The levels of its operands. -/
def py_operator.operands : py_operator → ℕ × ℕ
  | .or => (0, 1)
  | .and => (1, 2)
  | .add | .sub => (4, 5)
  | .mul | .div | .floordiv | .mod => (5, 6)
  | .pow => (8, 6)

def py_sign.level : py_sign → ℕ
  | .not => 2
  | _ => 6

def py_expr.level : py_expr → ℕ
  | .unary op _ => op.level
  | .binary op _ _ => op.level
  | .compare _ _ _ => 3
  | _ => 8

mutual

def py_expr.Grammatical : py_expr → Prop
  | .number _ _ | .string _ _ | .name _ | .constant _ => True
  | .paren e => e.Grammatical
  | .call f args comma =>
    f.level = 8 ∧ f.Grammatical ∧ AllGrammatical args ∧ (comma = true → args ≠ [])
  | .index e i => e.level = 8 ∧ e.Grammatical ∧ i.Grammatical
  | .unary op e => op.level ≤ e.level ∧ e.Grammatical
  | .binary op a b =>
    op.operands.1 ≤ a.level ∧ op.operands.2 ≤ b.level ∧ a.Grammatical ∧ b.Grammatical
  | .compare a _ b => 3 ≤ a.level ∧ 4 ≤ b.level ∧ a.Grammatical ∧ b.Grammatical

def AllGrammatical : List py_expr → Prop
  | [] => True
  | e :: es => e.Grammatical ∧ AllGrammatical es

end

mutual

/-- The tokens. -/
def py_expr.spell : py_expr → List lexeme_t
  | .number is_float text => [(if is_float then .TOK_FLOAT else .TOK_INTEGER, text)]
  | .string text more => (.TOK_STRING, text) :: more.map fun text => (.TOK_STRING, text)
  | .name text => [(.TOK_IDENTIFIER, text)]
  | .constant c => [(.TOK_KEYWORD, c.text)]
  | .paren e => delimiter "(" :: (e.spell ++ [delimiter ")"])
  | .call f args comma =>
    f.spell ++ delimiter "("
      :: (spell_args args ++ ((if comma then [delimiter ","] else []) ++ [delimiter ")"]))
  | .index e i => e.spell ++ delimiter "[" :: (i.spell ++ [delimiter "]"])
  | .unary op e => op.lexeme :: e.spell
  | .binary op a b => a.spell ++ op.lexeme :: b.spell
  | .compare a op b => a.spell ++ op.lexemes.1 :: (op.lexemes.2.toList ++ b.spell)

/-- The arguments of a call with the commas between them. -/
def spell_args : List py_expr → List lexeme_t
  | [] => []
  | e :: es => e.spell ++ spell_more es

def spell_more : List py_expr → List lexeme_t
  | [] => []
  | e :: es => delimiter "," :: (e.spell ++ spell_more es)

end

/-! ## The tree that is meant -/

def py_expr.is_compare : py_expr → Bool
  | .compare _ _ _ => true
  | _ => false

/-- An operator between two operands, without parentheses around. -/
def py_expr.is_operation : py_expr → Bool
  | .binary _ _ _ => true
  | .compare _ _ _ => true
  | _ => false

mutual

def py_expr.ast : py_expr → Option ast_expr
  | .number _ text => some (.number text)
  | .string text more => if more = [] then some (.string text) else none
  | .name text => some (.identifier text)
  | .constant c => some (.identifier c.text)
  | .paren e => e.ast
  | .call f args _ => f.ast.bind fun f => (args_ast args).map fun args => .call f args
  | .index e i => e.ast.bind fun e => i.ast.map fun i => .index e i
  | .unary op e => e.ast.map fun e => .unary op.lexeme.2 e
  | .binary op a b => a.ast.bind fun a => b.ast.map fun b => .binary op.lexeme.2 a b
  | .compare a op b =>
    if a.is_compare ∨ op.lexemes.2 ≠ none then none
    else a.ast.bind fun a => b.ast.map fun b => .binary op.lexemes.1.2 a b

def args_ast : List py_expr → Option (List ast_expr)
  | [] => some []
  | e :: es => e.ast.bind fun e => (args_ast es).map fun es => e :: es

end

/-! ## The condition -/

mutual

/-- Nothing without a node occurs, and no sign or `not` stands in front of an operation. -/
def py_expr.Plain : py_expr → Prop
  | .number _ _ | .name _ | .constant _ => True
  | .string _ more => more = []
  | .paren e => e.Plain
  | .call f args _ => f.Plain ∧ AllPlain args
  | .index e i => e.Plain ∧ i.Plain
  | .unary _ e => e.is_operation = false ∧ e.Plain
  | .binary _ a b => a.Plain ∧ b.Plain
  | .compare a op b => (a.is_compare = false ∧ op.lexemes.2 = none) ∧ a.Plain ∧ b.Plain

def AllPlain : List py_expr → Prop
  | [] => True
  | e :: es => e.Plain ∧ AllPlain es

end

/-! ## The tree that is built -/

/-- Signs in front of what stands for an operand. -/
def wrap (signs : List py_sign) (t : ast_expr) : ast_expr :=
  signs.foldr (fun op t => .unary op.lexeme.2 t) t

/-- What is read behind a left operand that was read to its end. -/
def built_binary (text : String) (a b : Option (ast_expr × Bool)) : Option (ast_expr × Bool) :=
  a.bind fun (a, stopped) =>
    if stopped then some (a, true) else b.map fun (b, stopped) => (.binary text a b, stopped)

/-- What stands in brackets has to be read to its end. -/
def built_whole (e : Option (ast_expr × Bool)) : Option ast_expr :=
  e.bind fun (e, stopped) => if stopped then none else some e

mutual

/-- The tree that the code builds of the tokens of `signs` and an expression, and whether it stops
in front of the last of them; `none` where it reports an error. -/
def built (signs : List py_sign) : py_expr → Option (ast_expr × Bool)
  | .number _ text => some (wrap signs (.number text), false)
  | .string text more => some (wrap signs (.string text), more ≠ [])
  | .name text => some (wrap signs (.identifier text), false)
  | .constant c => some (wrap signs (.identifier c.text), false)
  | .paren e => (built_whole (built [] e)).map fun e => (wrap signs e, false)
  | .call f args _ =>
    (built [] f).bind fun (f, stopped) =>
      if stopped then some (wrap signs f, true)
      else if AST_MAX_ARGS < args.length then none
      else (built_args args).map fun args => (wrap signs (.call f args), false)
  | .index e i =>
    (built [] e).bind fun (e, stopped) =>
      if stopped then some (wrap signs e, true)
      else (built_whole (built [] i)).map fun i => (wrap signs (.index e i), false)
  | .unary op e => built (signs ++ [op]) e
  | .binary op a b => built_binary op.lexeme.2 (built signs a) (built [] b)
  | .compare a op b =>
    if op = .notin then (built signs a).map fun (a, _) => (a, true)
    else built_binary op.lexemes.1.2 (built signs a) (built (if op = .isnot then [.not] else []) b)

def built_args : List py_expr → Option (List ast_expr)
  | [] => some []
  | e :: es => (built_whole (built [] e)).bind fun e => (built_args es).map fun es => e :: es

end

/-! ## Where it is the right one -/

variable {signs : List py_sign} {e a b : py_expr} {t t' : ast_expr}

theorem wrap_inj : wrap signs t = wrap signs t' ↔ t = t' := by
  induction signs with
  | nil => rfl
  | cons op signs ih =>
      rw [wrap, wrap, List.foldr_cons, List.foldr_cons, ast_expr.unary.injEq]
      exact (and_iff_right rfl).trans ih

theorem wrap_concat (signs : List py_sign) (op : py_sign) (t : ast_expr) :
    wrap (signs ++ [op]) t = wrap signs (.unary op.lexeme.2 t) := by
  rw [wrap, List.foldr_append]
  rfl

/-- With a sign in front it is no operation. -/
theorem wrap_eq_binary {text : String} {l r : ast_expr} :
    wrap signs t = .binary text l r ↔ signs = [] ∧ t = .binary text l r := by
  cases signs with
  | nil => exact (and_iff_right rfl).symm
  | cons op signs => exact iff_of_false (by simp [wrap]) (by simp)

/-- What `built` leaves, against the tree that is meant. -/
def Meant (signs : List py_sign) (e : py_expr) : Option (ast_expr × Bool) → Prop
  | none => True
  | some (_, true) => e.ast = none ∧ ¬e.Plain
  | some (t, false) => e.ast.map (wrap signs) = some t
      ↔ e.Plain ∧ (signs = [] ∨ e.is_operation = false)

/-- A primary: signs in front of it do no harm. -/
theorem Meant.primary (he : e.is_operation = false)
    (h : e.ast = some t ↔ e.Plain) : Meant signs e (some (wrap signs t, false)) := by
  change e.ast.map (wrap signs) = some (wrap signs t) ↔ _
  rw [Option.map_eq_some_iff, and_iff_left (Or.inr he), ← h]
  constructor
  · rintro ⟨t', hast, heq⟩
    rw [hast, wrap_inj.mp heq]
  · exact fun hast => ⟨t, hast, rfl⟩

/-- Whatever is built of what has no node. -/
theorem Meant.wrong (hast : e.ast = none) (hplain : ¬e.Plain) (r : Option (ast_expr × Bool)) :
    Meant signs e r := by
  match r with
  | none => trivial
  | some (t, true) => exact ⟨hast, hplain⟩
  | some (t, false) =>
    refine iff_of_false ?_ fun h => hplain h.1
    rw [hast]
    simp

/-- An operation with signs in front of it is built with the first operand under them. -/
theorem Meant.operation {text : String} {ra rb : Option (ast_expr × Bool)}
    (he : e.is_operation = true)
    (hast : e.ast = a.ast.bind fun a => b.ast.map fun b => .binary text a b)
    (hplain : e.Plain ↔ a.Plain ∧ b.Plain) (ha : Meant signs a ra) (hb : Meant [] b rb) :
    Meant signs e (built_binary text ra rb) := by
  match ra, rb with
  | none, _ => trivial
  | some (ta, true), _ =>
    exact Meant.wrong (by rw [hast, ha.1]; rfl) (fun h => ha.2 (hplain.mp h).1) _
  | some (ta, false), none => trivial
  | some (ta, false), some (tb, true) =>
    refine Meant.wrong ?_ (fun h => hb.2 (hplain.mp h).2) _
    rw [hast, hb.1]
    cases a.ast <;> rfl
  | some (ta, false), some (tb, false) =>
    have ha' : a.ast.map (wrap signs) = some ta ↔ a.Plain ∧ (signs = [] ∨ a.is_operation = false) :=
      ha
    have hb' : b.ast = some tb ↔ b.Plain := by
      have hmeant : b.ast.map (wrap []) = some tb ↔ b.Plain ∧ _ := hb
      rw [and_iff_left (Or.inl rfl)] at hmeant
      rw [← hmeant]
      cases b.ast <;> rfl
    have hoperands : e.ast = some (.binary text ta tb) ↔ a.ast = some ta ∧ b.ast = some tb := by
      rw [hast]
      cases a.ast with
      | none => simp
      | some a' => cases b.ast <;> simp
    change e.ast.map (wrap signs) = some (.binary text ta tb) ↔ _
    rw [Option.map_eq_some_iff, he, hplain]
    constructor
    · rintro ⟨t, ht, heq⟩
      obtain ⟨rfl, rfl⟩ := wrap_eq_binary.mp heq
      obtain ⟨hta, htb⟩ := hoperands.mp ht
      refine ⟨⟨(ha'.mp ?_).1, hb'.mp htb⟩, Or.inl rfl⟩
      rw [hta]
      rfl
    · rintro ⟨⟨hpa, hpb⟩, rfl | no⟩
      · refine ⟨_, hoperands.mpr ⟨?_, hb'.mpr hpb⟩, rfl⟩
        have hta := ha'.mpr ⟨hpa, Or.inl rfl⟩
        cases hcase : a.ast with
        | none => rw [hcase] at hta; exact absurd hta (by simp)
        | some a' => rw [hcase] at hta; exact hta
      · exact absurd no (by simp)

/-- Inside of brackets. -/
theorem Meant.whole {r : Option (ast_expr × Bool)} (h : Meant [] e r)
    (hr : built_whole r = some t) : e.ast = some t ↔ e.Plain := by
  match r with
  | none => exact absurd hr (by simp [built_whole])
  | some (t', true) => exact absurd hr (by simp [built_whole])
  | some (t', false) =>
    obtain rfl : t' = t := by simpa [built_whole] using hr
    have hmeant : e.ast.map (wrap []) = some t' ↔ e.Plain ∧ _ := h
    rw [and_iff_left (Or.inl rfl)] at hmeant
    rw [← hmeant]
    cases e.ast <;> rfl

/-- A callee or an indexed expression was stopped in. -/
theorem Meant.stopped (h : Meant [] a (some (t, true))) (hast : a.ast = none → e.ast = none)
    (hplain : e.Plain → a.Plain) (r : Option (ast_expr × Bool)) : Meant signs e r :=
  Meant.wrong (hast h.1) (fun hp => h.2 (hplain hp)) r

mutual

/-- What is built is what is meant, for plain expressions and no others. -/
theorem built_meant (signs : List py_sign) : (e : py_expr) → Meant signs e (built signs e)
  | .number is_float text => by
    rw [built]
    exact Meant.primary rfl (by simp [py_expr.ast, py_expr.Plain])
  | .string text more => by
    rw [built]
    by_cases hmore : more = []
    · rw [hmore]
      exact Meant.primary rfl (by simp [py_expr.ast, py_expr.Plain])
    · exact Meant.wrong (by simp [py_expr.ast, hmore]) (by simpa [py_expr.Plain] using hmore) _
  | .name text => by
    rw [built]
    exact Meant.primary rfl (by simp [py_expr.ast, py_expr.Plain])
  | .constant c => by
    rw [built]
    exact Meant.primary rfl (by simp [py_expr.ast, py_expr.Plain])
  | .paren e => by
    rw [built]
    cases hwhole : built_whole (built [] e) with
    | none => trivial
    | some t =>
        refine Meant.primary rfl ?_
        rw [py_expr.ast, py_expr.Plain]
        exact (built_meant [] e).whole hwhole
  | .call f args comma => by
    have hf := built_meant [] f
    rw [built]
    match hr : built [] f with
    | none => trivial
    | some (t, true) =>
      rw [hr] at hf
      refine hf.stopped (fun none_f => ?_) (fun hp => ?_) _
      · rw [py_expr.ast, none_f]
        rfl
      · rw [py_expr.Plain] at hp
        exact hp.1
    | some (t, false) =>
      have hplain : f.ast = some t ↔ f.Plain := hf.whole (by rw [hr]; rfl)
      dsimp only [Option.bind_some]
      rw [if_neg (by decide)]
      split
      · trivial
      · cases hargs : built_args args with
        | none => trivial
        | some ts =>
            refine Meant.primary rfl ?_
            rw [py_expr.Plain, ← hplain, ← built_args_meant args hargs, py_expr.ast]
            cases f.ast with
            | none => simp
            | some t' => cases args_ast args <;> simp
  | .index e i => by
    have he := built_meant [] e
    have hi := built_meant [] i
    rw [built]
    match hr : built [] e with
    | none => trivial
    | some (t, true) =>
      rw [hr] at he
      refine he.stopped (fun none_e => ?_) (fun hp => ?_) _
      · rw [py_expr.ast, none_e]
        rfl
      · rw [py_expr.Plain] at hp
        exact hp.1
    | some (t, false) =>
      have hplain : e.ast = some t ↔ e.Plain := he.whole (by rw [hr]; rfl)
      dsimp only [Option.bind_some]
      rw [if_neg (by decide)]
      cases hwhole : built_whole (built [] i) with
      | none => trivial
      | some ti =>
          refine Meant.primary rfl ?_
          rw [py_expr.Plain, ← hplain, ← hi.whole hwhole, py_expr.ast]
          cases e.ast with
          | none => simp
          | some t' => cases i.ast <;> simp
  | .unary op e => by
    have he := built_meant (signs ++ [op]) e
    rw [built]
    match built (signs ++ [op]) e, he with
    | none, _ => trivial
    | some (t, true), he =>
      refine Meant.wrong ?_ (fun hp => he.2 ?_) _
      · rw [py_expr.ast, he.1]
        rfl
      · rw [py_expr.Plain] at hp
        exact hp.2
    | some (t, false), he =>
      have hmeant : e.ast.map (wrap (signs ++ [op])) = some t
          ↔ e.Plain ∧ (signs ++ [op] = [] ∨ e.is_operation = false) := he
      change (py_expr.unary op e).ast.map (wrap signs) = some t ↔ _
      have hwrap : (py_expr.unary op e).ast.map (wrap signs)
          = e.ast.map (wrap (signs ++ [op])) := by
        rw [py_expr.ast, Option.map_map]
        congr 1
        funext t'
        exact (wrap_concat signs op t').symm
      rw [hwrap, hmeant, py_expr.Plain]
      simp [py_expr.is_operation, and_comm]
  | .binary op a b => by
    rw [built]
    refine Meant.operation rfl ?_ ?_ (built_meant signs a) (built_meant [] b)
    · rw [py_expr.ast]
    · rw [py_expr.Plain]
  | .compare a op b => by
    by_cases bad : a.is_compare = true ∨ op.lexemes.2 ≠ none
    · refine Meant.wrong ?_ (fun hp => ?_) _
      · rw [py_expr.ast, if_pos bad]
      · rw [py_expr.Plain] at hp
        rcases bad with chain | two
        · exact absurd chain (by rw [hp.1.1]; decide)
        · exact two hp.1.2
    · rw [not_or, not_not] at bad
      have hbuilt : built signs (.compare a op b)
          = built_binary op.lexemes.1.2 (built signs a) (built [] b) := by
        have hnotin : op ≠ .notin := fun h => absurd bad.2 (by rw [h]; decide)
        have hisnot : op ≠ .isnot := fun h => absurd bad.2 (by rw [h]; decide)
        rw [built, if_neg hnotin, if_neg hisnot]
      rw [hbuilt]
      refine Meant.operation rfl ?_ ?_ (built_meant signs a) (built_meant [] b)
      · rw [py_expr.ast, if_neg (by simp [bad.1, bad.2])]
      · rw [py_expr.Plain]
        exact and_iff_right ⟨by simpa using bad.1, bad.2⟩

theorem built_args_meant : (args : List py_expr) → ∀ {ts : List ast_expr},
    built_args args = some ts → (args_ast args = some ts ↔ AllPlain args)
  | [], ts, h => by
    rw [built_args] at h
    simp [args_ast, AllPlain, Option.some.inj h]
  | e :: es, ts, h => by
    rw [built_args, Option.bind_eq_some_iff] at h
    obtain ⟨t, hwhole, h⟩ := h
    obtain ⟨ts, hargs, rfl⟩ := Option.map_eq_some_iff.mp h
    rw [AllPlain, ← (built_meant [] e).whole hwhole, ← built_args_meant es hargs, args_ast]
    cases e.ast with
    | none => simp
    | some t' => cases args_ast es <;> simp

end

/-- **The tree that is built is the one that is meant, where the expression is plain.** -/
theorem built_iff {stopped : Bool} (h : built [] e = some (t, stopped)) :
    e.ast = some t ↔ e.Plain := by
  have hmeant := built_meant [] e
  rw [h] at hmeant
  cases stopped with
  | true =>
      refine iff_of_false ?_ hmeant.2
      rw [hmeant.1]
      simp
  | false => exact (built_meant [] e).whole (by rw [h]; rfl)

/-! ## Where none is built -/

/-- Outside of brackets there is a `not in`, or a string behind a string: the parser stops there. -/
def py_expr.stops : py_expr → Bool
  | .number _ _ | .name _ | .constant _ | .paren _ => false
  | .string _ more => more ≠ []
  | .call f _ _ => f.stops
  | .index e _ => e.stops
  | .unary _ e => e.stops
  | .binary _ a b => a.stops || b.stops
  | .compare a op b => a.stops || op = .notin || b.stops

mutual

/-- The parser comes upon brackets whose closing one is not reached, or upon too many arguments. -/
def py_expr.Refused : py_expr → Prop
  | .number _ _ | .string _ _ | .name _ | .constant _ => False
  | .paren e => e.Refused ∨ e.stops = true
  | .call f args _ =>
    f.Refused ∨ f.stops = false ∧ (AST_MAX_ARGS < args.length ∨ AnyRefused args)
  | .index e i => e.Refused ∨ e.stops = false ∧ (i.Refused ∨ i.stops = true)
  | .unary _ e => e.Refused
  | .binary _ a b => a.Refused ∨ a.stops = false ∧ b.Refused
  | .compare a op b => a.Refused ∨ (a.stops = false ∧ op ≠ .notin) ∧ b.Refused

def AnyRefused : List py_expr → Prop
  | [] => False
  | e :: es => (e.Refused ∨ e.stops = true) ∨ AnyRefused es

end

mutual

/-- The nodes of what is read of the expression. -/
def py_expr.read_nodes : py_expr → ℕ
  | .number _ _ | .string _ _ | .name _ | .constant _ => 1
  | .paren e => e.read_nodes
  | .call f args _ => f.read_nodes + if f.stops then 0 else 1 + args_nodes args
  | .index e i => e.read_nodes + if e.stops then 0 else i.read_nodes + 1
  | .unary _ e => e.read_nodes + 1
  | .binary _ a b => a.read_nodes + if a.stops then 0 else b.read_nodes + 1
  | .compare a op b =>
    a.read_nodes + if a.stops ∨ op = .notin then 0
      else b.read_nodes + 1 + if op = .isnot then 1 else 0

def args_nodes : List py_expr → ℕ
  | [] => 0
  | e :: es => e.read_nodes + args_nodes es

end

/-- What `built` says of an expression that is refused, or stopped in, or read. -/
def Counted (e : py_expr) (nodes : ℕ) : Option (ast_expr × Bool) → Prop
  | none => e.Refused
  | some (t, stopped) => ¬e.Refused ∧ stopped = e.stops ∧ t.nodes = nodes

theorem wrap_nodes : (wrap signs t).nodes = signs.length + t.nodes := by
  induction signs with
  | nil => simp [wrap]
  | cons op signs ih =>
      rw [wrap, List.foldr_cons, ast_expr.nodes, List.length_cons]
      rw [wrap] at ih
      omega

/-- The value of an expression in brackets. -/
theorem Counted.whole {r : Option (ast_expr × Bool)} {k : ℕ} (h : Counted e k r) :
    (built_whole r).elim (e.Refused ∨ e.stops = true)
      fun t => ¬(e.Refused ∨ e.stops = true) ∧ t.nodes = k := by
  match r, h with
  | none, h => exact Or.inl h
  | some (t, true), h => exact Or.inr h.2.1.symm
  | some (t, false), h =>
    refine ⟨?_, h.2.2⟩
    rintro (hrefused | hstops)
    · exact h.1 hrefused
    · exact absurd (h.2.1.trans hstops) (by decide)

/-- A left operand and the right one. -/
theorem Counted.operation (text : String) {ra rb : Option (ast_expr × Bool)} {k k' : ℕ}
    (hrefused : e.Refused ↔ a.Refused ∨ a.stops = false ∧ b.Refused)
    (hstops : e.stops = (a.stops || b.stops)) (ha : Counted a k ra) (hb : Counted b k' rb) :
    Counted e (k + if a.stops then 0 else k' + 1) (built_binary text ra rb) := by
  match ra, ha with
  | none, ha => exact hrefused.mpr (Or.inl ha)
  | some (ta, true), ha =>
    obtain ⟨hclear, hs, hnodes⟩ := ha
    refine ⟨fun h => ?_, ?_, ?_⟩
    · rcases hrefused.mp h with h | h
      · exact hclear h
      · exact absurd (hs.trans h.1) (by decide)
    · rw [hstops, ← hs, Bool.true_or]
    · rw [← hs, if_pos rfl, hnodes, Nat.add_zero]
  | some (ta, false), ha =>
    obtain ⟨hclear, hs, hnodes⟩ := ha
    match rb, hb with
    | none, hb => exact hrefused.mpr (Or.inr ⟨hs.symm, hb⟩)
    | some (tb, stopped), hb =>
      obtain ⟨hclear', hs', hnodes'⟩ := hb
      refine ⟨fun h => ?_, ?_, ?_⟩
      · rcases hrefused.mp h with h | h
        · exact hclear h
        · exact hclear' h.2
      · rw [hstops, ← hs, Bool.false_or]
        exact hs'
      · rw [← hs, if_neg (by decide), ast_expr.nodes, hnodes, hnodes']
        omega

/-- A primary that the parser stopped in, or that goes on with a value in brackets. -/
theorem Counted.extend (signs : List py_sign) {β : Type} {r : Option (ast_expr × Bool)} {inner : Option β}
    {refuses : Prop} {f : ast_expr → β → ast_expr} {k k' : ℕ}
    (hrefused : e.Refused ↔ a.Refused ∨ a.stops = false ∧ refuses) (hstops : e.stops = a.stops)
    (ha : Counted a k r)
    (hinner : inner.elim refuses fun b => ¬refuses ∧ ∀ t, (f t b).nodes = t.nodes + k') :
    Counted e (signs.length + (k + if a.stops then 0 else k')) (r.bind fun (t, stopped) =>
      if stopped then some (wrap signs t, true)
      else inner.map fun b => (wrap signs (f t b), false)) := by
  match r, ha with
  | none, ha => exact hrefused.mpr (Or.inl ha)
  | some (t, true), ha =>
    obtain ⟨hclear, hs, hnodes⟩ := ha
    refine ⟨fun h => ?_, hs.trans hstops.symm, ?_⟩
    · rcases hrefused.mp h with h | h
      · exact hclear h
      · exact absurd (hs.trans h.1) (by decide)
    · rw [← hs, if_pos rfl, wrap_nodes, hnodes, Nat.add_zero]
  | some (t, false), ha =>
    obtain ⟨hclear, hs, hnodes⟩ := ha
    match inner, hinner with
    | none, hinner => exact hrefused.mpr (Or.inr ⟨hs.symm, hinner⟩)
    | some b, hinner =>
      refine ⟨fun h => ?_, hs.trans hstops.symm, ?_⟩
      · rcases hrefused.mp h with h | h
        · exact hclear h
        · exact hinner.1 h.2
      · rw [← hs, if_neg (by decide), wrap_nodes, hinner.2, hnodes]

mutual

/-- Where nothing is built, and how many nodes are taken where something is. -/
theorem built_counted (signs : List py_sign) :
    (e : py_expr) → Counted e (signs.length + e.read_nodes) (built signs e)
  | .number is_float text => by
    rw [built]
    refine ⟨?_, rfl, ?_⟩
    · rw [py_expr.Refused]
      exact id
    · rw [wrap_nodes, py_expr.read_nodes, ast_expr.nodes]
  | .string text more => by
    rw [built]
    refine ⟨?_, ?_, ?_⟩
    · rw [py_expr.Refused]
      exact id
    · rw [py_expr.stops]
    · rw [wrap_nodes, py_expr.read_nodes, ast_expr.nodes]
  | .name text => by
    rw [built]
    refine ⟨?_, rfl, ?_⟩
    · rw [py_expr.Refused]
      exact id
    · rw [wrap_nodes, py_expr.read_nodes, ast_expr.nodes]
  | .constant c => by
    rw [built]
    refine ⟨?_, rfl, ?_⟩
    · rw [py_expr.Refused]
      exact id
    · rw [wrap_nodes, py_expr.read_nodes, ast_expr.nodes]
  | .paren e => by
    have he := (built_counted [] e).whole
    rw [built]
    match built_whole (built [] e), he with
    | none, he =>
      change (py_expr.paren e).Refused
      rwa [py_expr.Refused]
    | some t, he =>
      refine ⟨?_, rfl, ?_⟩
      · rw [py_expr.Refused]
        exact he.1
      · rw [wrap_nodes, he.2, py_expr.read_nodes, List.length_nil, Nat.zero_add]
  | .call f args comma => by
    have hf := built_counted [] f
    have hargs := built_args_counted args
    have hlist : (if AST_MAX_ARGS < args.length then none else built_args args).elim
        (AST_MAX_ARGS < args.length ∨ AnyRefused args)
        fun ts => ¬(AST_MAX_ARGS < args.length ∨ AnyRefused args)
          ∧ ∀ t : ast_expr, (ast_expr.call t ts).nodes = t.nodes + (1 + args_nodes args) := by
      split
      · next many => exact Or.inl many
      · next few =>
        match built_args args, hargs with
        | none, hargs => exact Or.inr hargs
        | some ts, hargs =>
          refine ⟨?_, fun t => ?_⟩
          · rintro (many | hany)
            · exact few many
            · exact hargs.1 hany
          · rw [ast_expr.nodes, hargs.2, Nat.add_assoc]
    have h := Counted.extend signs (e := .call f args comma) (f := ast_expr.call)
      (by rw [py_expr.Refused]) (by rw [py_expr.stops]) hf hlist
    have hbuilt : built signs (.call f args comma) = (built [] f).bind fun (t, stopped) =>
        if stopped then some (wrap signs t, true)
        else (if AST_MAX_ARGS < args.length then none else built_args args).map fun args =>
          (wrap signs (.call t args), false) := by
      rw [built]
      congr 1
      funext ⟨t, stopped⟩
      cases stopped with
      | true => rfl
      | false => by_cases many : AST_MAX_ARGS < args.length <;> simp [many]
    rw [hbuilt, py_expr.read_nodes]
    rwa [List.length_nil, Nat.zero_add] at h
  | .index e i => by
    have he := built_counted [] e
    have hi := (built_counted [] i).whole
    have hbracket : (built_whole (built [] i)).elim (i.Refused ∨ i.stops = true)
        fun ti => ¬(i.Refused ∨ i.stops = true)
          ∧ ∀ t : ast_expr, (ast_expr.index t ti).nodes = t.nodes + (i.read_nodes + 1) := by
      match built_whole (built [] i), hi with
      | none, hi => exact hi
      | some ti, hi =>
        refine ⟨hi.1, fun t => ?_⟩
        rw [ast_expr.nodes, hi.2, List.length_nil, Nat.zero_add, Nat.add_assoc]
    have h := Counted.extend signs (e := .index e i) (f := ast_expr.index)
      (by rw [py_expr.Refused]) (by rw [py_expr.stops]) he hbracket
    rw [built, py_expr.read_nodes]
    rwa [List.length_nil, Nat.zero_add] at h
  | .unary op e => by
    have he := built_counted (signs ++ [op]) e
    rw [built, py_expr.read_nodes]
    rw [List.length_append, List.length_singleton, Nat.add_assoc, Nat.add_comm 1] at he
    match built (signs ++ [op]) e, he with
    | none, he =>
      change (py_expr.unary op e).Refused
      rwa [py_expr.Refused]
    | some (t, stopped), he =>
      refine ⟨?_, ?_, he.2.2⟩
      · rw [py_expr.Refused]
        exact he.1
      · rw [py_expr.stops]
        exact he.2.1
  | .binary op a b => by
    have ha := built_counted signs a
    have hb := built_counted [] b
    rw [built, py_expr.read_nodes, ← Nat.add_assoc]
    rw [List.length_nil, Nat.zero_add] at hb
    exact Counted.operation _ (by rw [py_expr.Refused]) (by rw [py_expr.stops]) ha hb
  | .compare a op b => by
    have ha := built_counted signs a
    rw [built, py_expr.read_nodes, ← Nat.add_assoc]
    by_cases hop : op = .notin
    · rw [if_pos hop, if_pos (Or.inr hop), Nat.add_zero]
      match built signs a, ha with
      | none, ha =>
        change (py_expr.compare a op b).Refused
        rw [py_expr.Refused]
        exact Or.inl ha
      | some (t, stopped), ha =>
        refine ⟨?_, ?_, ha.2.2⟩
        · rw [py_expr.Refused]
          rintro (h | h)
          · exact ha.1 h
          · exact h.1.2 hop
        · simp [py_expr.stops, hop]
    · have hb := built_counted (if op = .isnot then [.not] else []) b
      have hlen : (if op = .isnot then [py_sign.not] else []).length + b.read_nodes + 1
          = b.read_nodes + 1 + if op = .isnot then 1 else 0 := by
        split
        · rw [List.length_singleton]
          omega
        · rw [List.length_nil]
          omega
      have h := Counted.operation op.lexemes.1.2 (e := .compare a op b)
        (by simp [py_expr.Refused, hop]) (by simp [py_expr.stops, hop]) ha hb
      rw [hlen] at h
      rw [if_neg hop]
      simpa [hop] using h

theorem built_args_counted : (args : List py_expr) →
    (built_args args).elim (AnyRefused args)
      fun ts => ¬AnyRefused args ∧ items_nodes ts = args_nodes args
  | [] => by
    rw [built_args, AnyRefused]
    exact ⟨id, by rw [items_nodes, args_nodes]⟩
  | e :: es => by
    have he := (built_counted [] e).whole
    have hes := built_args_counted es
    rw [built_args, AnyRefused, args_nodes]
    match built_whole (built [] e), he with
    | none, he => exact Or.inl he
    | some t, he =>
      match built_args es, hes with
      | none, hes => exact Or.inr hes
      | some ts, hes =>
        refine ⟨?_, ?_⟩
        · rintro (h | h)
          · exact he.1 h
          · exact hes.1 h
        · rw [items_nodes, he.2, hes.2, List.length_nil, Nat.zero_add]

end

/-- **Nothing is built of what is refused, and of nothing else.** -/
theorem built_none_iff : built [] e = none ↔ e.Refused := by
  have h := built_counted [] e
  match hbuilt : built [] e with
  | none =>
    rw [hbuilt] at h
    exact iff_of_true rfl h
  | some (t, stopped) =>
    rw [hbuilt] at h
    exact iff_of_false (by simp) h.1

theorem built_nodes {stopped : Bool} (h : built [] e = some (t, stopped)) :
    t.nodes = e.read_nodes := by
  have hcounted := built_counted [] e
  rw [h, List.length_nil, Nat.zero_add] at hcounted
  exact hcounted.2.2

end SysInC.Pythont
