/-
What the parser of `src/pythont/pythont.c` makes of a source.

Two walks over the grammar. The first is a correctness statement for every production at once
(`Parses`): it ends, it takes what it takes from the source, the nodes of its tree are nodes
of the pool, and without a bound on the pool NULL comes with the error flag. The second one
(`Follows`) compares the pool of the code with the unbounded one: as long as the nodes
suffice nobody sees the difference.
-/
import SysInC.PythontAst

set_option autoImplicit false

namespace SysInC.Pythont

open NullM

/-! ## The nodes of a tree -/

mutual

def ast_expr.nodes : ast_expr → ℕ
  | .number _ => 1
  | .string _ => 1
  | .identifier _ => 1
  | .unary _ operand => operand.nodes + 1
  | .binary _ left right => left.nodes + right.nodes + 1
  | .call callee args => callee.nodes + 1 + items_nodes args
  | .list items => 1 + items_nodes items
  | .tuple items => items_nodes items + 1
  | .dict items => 1 + items_nodes items
  | .index left right => left.nodes + right.nodes + 1
  | .slice left start stop step =>
    left.nodes + bound_nodes start + 1 + bound_nodes stop + bound_nodes step
  | .member left _ => left.nodes + 1
  | .assign _ left right => left.nodes + right.nodes + 1

def items_nodes : List ast_expr → ℕ
  | [] => 0
  | item :: items => item.nodes + items_nodes items

def bound_nodes : Option ast_expr → ℕ
  | none => 0
  | some bound => bound.nodes

end

mutual

def ast_stmt.nodes : ast_stmt → ℕ
  | .expr_stmt left => left.nodes + 1
  | .if_stmt left body else_body => 1 + left.nodes + (1 + stmts_nodes body) + body_nodes else_body
  | .while_stmt left body => 1 + left.nodes + body_nodes body
  | .for_stmt _ right body => 2 + right.nodes + body_nodes body
  | .function _ args body => 1 + args.length + body_nodes body
  | .return_stmt left => 1 + bound_nodes left
  | .break_stmt => 1
  | .continue_stmt => 1
  | .pass_stmt => 1

def stmts_nodes : List ast_stmt → ℕ
  | [] => 0
  | stmt :: stmts => stmt.nodes + stmts_nodes stmts

/-- A block is a node of its own. -/
def body_nodes : Option (List ast_stmt) → ℕ
  | none => 0
  | some stmts => 1 + stmts_nodes stmts

end

theorem items_nodes_append (l l' : List ast_expr) :
    items_nodes (l ++ l') = items_nodes l + items_nodes l' := by
  induction l with
  | nil => simp [items_nodes]
  | cons item l ih => simp [items_nodes, ih, Nat.add_assoc]

theorem stmts_nodes_append (l l' : List ast_stmt) :
    stmts_nodes (l ++ l') = stmts_nodes l + stmts_nodes l' := by
  induction l with
  | nil => simp [stmts_nodes]
  | cons stmt l ih => simp [stmts_nodes, ih, Nat.add_assoc]

/-! ## Moving on -/

/-- What the parser has left to do. -/
def ast_parser_t.measure (p : ast_parser_t) : ℕ :=
  lexer_measure p.lexer + if p.current.stuck then 0 else 1

/-- Between `p` and `p'` the parser took `nodes` nodes of the pool; with an unbounded pool and
without an error, exactly these. -/
structure Moved (max_nodes : Option ℕ) (p p' : ast_parser_t) (nodes : ℕ) : Prop where
  measure : p'.measure ≤ p.measure
  error : p'.error = false → p.error = false
  count : p.ast_node_count ≤ p'.ast_node_count
  bound : ∀ limit, max_nodes = some limit → p.ast_node_count ≤ limit → p'.ast_node_count ≤ limit
  taken : p'.error = false → p.ast_node_count + nodes ≤ p'.ast_node_count
  exact : p'.error = false → max_nodes = none → p'.ast_node_count = p.ast_node_count + nodes

section Moved

variable {max_nodes : Option ℕ} {p p' p'' : ast_parser_t} {n m : ℕ}

theorem Moved.refl (p : ast_parser_t) : Moved max_nodes p p 0 where
  measure := le_rfl
  error := id
  count := le_rfl
  bound := fun _ _ h => h
  taken := fun _ => le_rfl
  exact := fun _ _ => rfl

theorem Moved.trans (h : Moved max_nodes p p' n) (h' : Moved max_nodes p' p'' m) :
    Moved max_nodes p p'' (n + m) where
  measure := h'.measure.trans h.measure
  error := fun he => h.error (h'.error he)
  count := h.count.trans h'.count
  bound := fun limit hl hle => h'.bound limit hl (h.bound limit hl hle)
  taken := fun he => by
    have h1 := h.taken (h'.error he)
    have h2 := h'.taken he
    omega
  exact := fun he hmax => by
    have h1 := h.exact (h'.error he) hmax
    have h2 := h'.exact he hmax
    omega

end Moved

/-- What a production leaves that starts from `p`. A NULL without the error flag says that
the pool has a bound. -/
def Parses (max_nodes : Option ℕ) {α : Type} (p : ast_parser_t) (size : α → ℕ)
    (Q : α → ast_parser_t → Prop) : Option α → ast_parser_t → Prop
  | none, p' => Moved max_nodes p p' 0 ∧ (p'.error = false → max_nodes ≠ none)
  | some a, p' => Moved max_nodes p p' (size a) ∧ Q a p'

section Rules

variable {max_nodes : Option ℕ} {α β : Type} {p p0 : ast_parser_t} {k : ℕ} {size : α → ℕ}
  {Q : α → ast_parser_t → Prop}

/-- The nodes taken so far are lost with a NULL. -/
theorem Moved.null {p' : ast_parser_t} (hm : Moved max_nodes p0 p k)
    (h : Parses max_nodes p size Q none p') {size' : β → ℕ} {Q' : β → ast_parser_t → Prop} :
    Parses max_nodes p0 size' Q' none p' := by
  obtain ⟨hm', hnone⟩ := h
  have hall := hm.trans hm'
  refine ⟨⟨hall.measure, hall.error, hall.count, hall.bound, fun _ => hall.count, ?_⟩, hnone⟩
  exact fun he hmax => absurd hmax (hnone he)

/-- What follows a production starts where that ended, with the nodes of both. -/
theorem Moved.bind {f : parser α} {g : α → parser β} {size' : β → ℕ}
    {Q' : β → ast_parser_t → Prop} (hm : Moved max_nodes p0 p k)
    (hf : Ends f p (Parses max_nodes p size Q))
    (hg : ∀ a p', p'.measure ≤ p.measure → Moved max_nodes p0 p' (k + size a) → Q a p' →
      Ends (g a) p' (Parses max_nodes p0 size' Q')) :
    Ends (f >>= g) p (Parses max_nodes p0 size' Q') :=
  hf.bind (fun _ h => hm.null h) fun a p' h => hg a p' h.1.measure (hm.trans h.1) h.2

/-- The same for a loop, whose nodes are counted from before it. -/
theorem loop_bind {f : parser α} {g : α → parser β} {size' : β → ℕ}
    {Q' : β → ast_parser_t → Prop} (hf : Ends f p (Parses max_nodes p0 size Q))
    (hg : ∀ a p', Moved max_nodes p0 p' (size a) → Q a p' →
      Ends (g a) p' (Parses max_nodes p0 size' Q')) :
    Ends (f >>= g) p (Parses max_nodes p0 size' Q') :=
  hf.bind (fun _ h => h) fun a p' h => hg a p' h.1 h.2

theorem Moved.pure {a : α} (hm : Moved max_nodes p0 p k) (hk : k = size a) (hq : Q a p) :
    Ends (Pure.pure a) p (Parses max_nodes p0 size Q) := by
  subst hk
  exact Ends.pure ⟨hm, hq⟩

/-- The last part of a production. -/
theorem Moved.last {f : parser α} {size' : α → ℕ} {Q' : α → ast_parser_t → Prop}
    (hm : Moved max_nodes p0 p k) (hf : Ends f p (Parses max_nodes p size Q))
    (hg : ∀ a p', Q a p' → k + size a = size' a ∧ Q' a p') :
    Ends f p (Parses max_nodes p0 size' Q') := by
  refine hf.mono ?_
  rintro (_ | a) p' h
  · exact hm.null h
  · obtain ⟨hsize, hq⟩ := hg a p' h.2
    exact ⟨hsize ▸ hm.trans h.1, hq⟩

theorem Moved.fail (hm : Moved max_nodes p0 p k) :
    Ends ast_fail p (Parses max_nodes p0 size Q) :=
  Ends.modify (Ends.null ⟨⟨hm.measure, fun h => absurd h (by simp), hm.count, hm.bound,
    fun h => absurd h (by simp), fun h => absurd h (by simp)⟩, fun h => absurd h (by simp)⟩)

/-- A part that may be missing: where it came back NULL, its nodes are lost. -/
theorem Moved.bind_optional {f : parser α} {g : Option α → parser β} {size' : β → ℕ}
    {Q' : β → ast_parser_t → Prop} (hm : Moved max_nodes p0 p k)
    (hf : Ends f p (Parses max_nodes p size Q))
    (hsome : ∀ a p', p'.measure ≤ p.measure → Moved max_nodes p0 p' (k + size a) → Q a p' →
      Ends (g (some a)) p' (Parses max_nodes p0 size' Q'))
    (hnone : ∀ p', p'.measure ≤ p.measure → Moved max_nodes p0 p' k →
      (p'.error = false → max_nodes ≠ none) → Ends (g none) p' (Parses max_nodes p0 size' Q')) :
    Ends (optional f >>= g) p (Parses max_nodes p0 size' Q') := by
  obtain ⟨r, p', heval, hr⟩ := hf
  cases r with
  | some a =>
      have hopt := eval_optional_value heval
      obtain ⟨r', p'', heval', hr'⟩ := hsome a p' hr.1.measure (hm.trans hr.1) hr.2
      exact ⟨r', p'', (eval_bind_value g hopt).trans heval', hr'⟩
  | none =>
      have hopt := eval_optional_null heval
      obtain ⟨r', p'', heval', hr'⟩ := hnone p' hr.1.measure (hm.trans hr.1) hr.2
      exact ⟨r', p'', (eval_bind_value g hopt).trans heval', hr'⟩

end Rules

/-! ## The primitives -/

section Primitives

variable {max_nodes : Option ℕ} (p : ast_parser_t)

theorem stuck_of_type {t : token_t} (h : t.type ≠ .TOK_EOF) (h' : t.type ≠ .TOK_ERROR)
    (h'' : t.type ≠ .TOK_FLOAT) : t.stuck = false := by
  simp [token_t.stuck, h, h', h'']

/-- The next token takes something, unless the current one is `stuck`. -/
theorem ast_next_spec : Ends ast_next p (Parses max_nodes p (fun _ => 0)
    fun _ p' => p.current.stuck = false → p'.measure < p.measure) := by
  have hnext := lexer_next_measure (p.lexer.rest.length + 1) p.lexer
  have hle : p.advance.measure + (if p.current.stuck then 0 else 1) ≤ p.measure := by
    unfold ast_parser_t.measure ast_parser_t.advance lexer_token
    obtain ⟨hle, hlt⟩ := hnext
    cases hstuck : (lexer_next (p.lexer.rest.length + 1) p.lexer).1.stuck with
    | true =>
        simp only [if_true]
        omega
    | false =>
        have hdown := hlt hstuck
        simp only [Bool.false_eq_true, if_false]
        omega
  refine ⟨some ⟨⟩, p.advance, rfl, ⟨by split_ifs at hle <;> omega, ?_, le_rfl, fun _ _ h => h,
    fun _ => le_rfl, fun _ _ => rfl⟩, ?_⟩
  · intro he
    exact (Bool.or_eq_false_iff.mp he).1
  · intro hstuck
    rw [hstuck] at hle
    simp only [Bool.false_eq_true, if_false] at hle
    omega

theorem ast_new_spec : Ends (ast_new max_nodes) p (Parses max_nodes p (fun _ => 1)
    fun _ p' => p'.current = p.current ∧ p'.measure = p.measure) := by
  refine Ends.get ?_
  by_cases hfull : pool_full max_nodes p.ast_node_count = true
  · rw [if_pos hfull]
    refine Ends.null ⟨Moved.refl p, fun _ hmax => ?_⟩
    rw [hmax] at hfull
    exact absurd hfull (by simp [pool_full])
  · rw [if_neg hfull]
    refine ⟨some ⟨⟩, _, rfl, ⟨le_rfl, id, Nat.le_succ _, ?_, fun _ => le_rfl, fun _ _ => rfl⟩,
      rfl, rfl⟩
    intro limit hmax _
    rw [hmax] at hfull
    simp only [pool_full, decide_eq_true_eq] at hfull
    simp only
    omega

variable {p}

theorem not_stuck_of_delimiter {delim : String} (h : ast_is_delimiter p delim = true) :
    p.current.stuck = false := by
  simp only [ast_is_delimiter, Bool.decide_and, Bool.and_eq_true, decide_eq_true_eq] at h
  exact stuck_of_type (by simp [h.1]) (by simp [h.1]) (by simp [h.1])

theorem not_stuck_of_keyword {word : String} (h : ast_is_keyword p word = true) :
    p.current.stuck = false := by
  simp only [ast_is_keyword, Bool.decide_and, Bool.and_eq_true, decide_eq_true_eq] at h
  exact stuck_of_type (by simp [h.1]) (by simp [h.1]) (by simp [h.1])

theorem ast_next_lt (h : p.current.stuck = false) : Ends ast_next p
    (Parses max_nodes p (fun _ => 0) fun _ p' => p'.measure < p.measure) := by
  have hnext : Ends ast_next p (Parses max_nodes p (fun _ => 0) _) := ast_next_spec p
  obtain ⟨r, p', heval, hr⟩ := hnext
  refine ⟨r, p', heval, ?_⟩
  cases r with
  | none => exact hr
  | some u => exact ⟨hr.1, hr.2 h⟩

theorem ast_expect_spec (delim : String) : Ends (ast_expect delim) p
    (Parses max_nodes p (fun _ => 0) fun _ p' => p'.measure < p.measure) := by
  refine Ends.get ?_
  by_cases hd : ast_is_delimiter p delim = true
  · rw [if_pos hd]
    exact ast_next_lt (not_stuck_of_delimiter hd)
  · rw [if_neg hd]
    exact (Moved.refl p).fail

theorem ast_expect_type_spec {type : token_type_t} (h : type ≠ .TOK_EOF) (h' : type ≠ .TOK_ERROR)
    (h'' : type ≠ .TOK_FLOAT) : Ends (ast_expect_type type) p
    (Parses max_nodes p (fun _ => 0) fun _ p' => p'.measure < p.measure) := by
  refine Ends.get ?_
  by_cases hd : p.current.type = type
  · rw [if_pos hd]
    exact ast_next_lt (stuck_of_type (hd ▸ h) (hd ▸ h') (hd ▸ h''))
  · rw [if_neg hd]
    exact (Moved.refl p).fail

end Primitives

theorem Moved.cast {max_nodes : Option ℕ} {p p' : ast_parser_t} {n m : ℕ}
    (h : Moved max_nodes p p' n) (hnm : n = m) : Moved max_nodes p p' m :=
  hnm ▸ h

/-! ## Expressions -/

/-- The parser of expressions, as far as `fuel` reaches. -/
def ParsesExpression (max_nodes : Option ℕ) (fuel : ℕ) (expression : ℤ → parser ast_expr) : Prop :=
  ∀ p min_prec, 0 ≤ min_prec → p.measure < fuel →
    Ends (expression min_prec) p (Parses max_nodes p ast_expr.nodes fun _ _ => True)

section Expression

variable {max_nodes : Option ℕ} {fuel : ℕ} {expression : ℤ → parser ast_expr}
  {p p0 : ast_parser_t}

theorem ast_parse_items_spec (hexpr : ParsesExpression max_nodes fuel expression) (close : String)
    (n : ℕ) (items : List ast_expr) (hm : Moved max_nodes p0 p (items_nodes items))
    (hn : p.measure < n) (hfuel : p.measure < fuel) :
    Ends (ast_parse_items expression close n items) p
      (Parses max_nodes p0 items_nodes fun _ _ => True) := by
  induction n generalizing p items with
  | zero => omega
  | succ n ih =>
      unfold ast_parse_items
      refine Ends.get ?_
      by_cases herr : p.error = true
      · rw [if_pos herr]
        exact hm.pure rfl trivial
      rw [if_neg herr]
      by_cases hargs : AST_MAX_ARGS ≤ items.length
      · rw [if_pos hargs]
        exact hm.fail
      rw [if_neg hargs]
      refine hm.bind (hexpr p 0 le_rfl hfuel) fun item p1 hle1 hm1 _ => Ends.get ?_
      have hnodes : items_nodes items + item.nodes = items_nodes (items ++ [item]) := by
        simp [items_nodes_append, items_nodes]
      -- the comma is what the next turn is paid with
      by_cases hcomma : ast_is_delimiter p1 "," = true
      · rw [if_neg (by simp [hcomma])]
        refine hm1.bind (ast_next_lt (not_stuck_of_delimiter hcomma))
          fun _ p2 _ hm2 hlt => Ends.get ?_
        by_cases hclose : ast_is_delimiter p2 close = true
        · rw [if_pos hclose]
          exact hm2.pure hnodes trivial
        · rw [if_neg hclose]
          exact ih (items ++ [item]) (hm2.cast hnodes) (by omega) (by omega)
      · rw [if_pos (by simp [hcomma])]
        exact hm1.pure hnodes trivial

theorem ast_parse_closed_spec (hexpr : ParsesExpression max_nodes fuel expression) (close : String)
    (n : ℕ) (hn : p.measure < n) (hfuel : p.measure < fuel) :
    Ends (ast_parse_closed expression close n) p
      (Parses max_nodes p items_nodes fun _ p' => p'.measure < p.measure) := by
  refine Ends.get ?_
  have hitems : Ends (if ast_is_delimiter p close = true then pure []
      else ast_parse_items expression close n []) p
      (Parses max_nodes p items_nodes fun _ _ => True) := by
    split_ifs
    · exact (Moved.refl p).pure rfl trivial
    · exact ast_parse_items_spec hexpr close n [] (Moved.refl p) hn hfuel
  refine (Moved.refl p).bind hitems fun items p1 hle hm _ => ?_
  refine hm.bind (ast_expect_spec close) fun _ p2 _ hm2 hlt => ?_
  exact hm2.pure (by omega) (by omega)

theorem ast_parse_pairs_spec (hexpr : ParsesExpression max_nodes fuel expression)
    (n : ℕ) (items : List ast_expr) (hm : Moved max_nodes p0 p (items_nodes items))
    (hn : p.measure < n) (hfuel : p.measure < fuel) :
    Ends (ast_parse_pairs expression n items) p
      (Parses max_nodes p0 items_nodes fun _ _ => True) := by
  induction n generalizing p items with
  | zero => omega
  | succ n ih =>
      unfold ast_parse_pairs
      refine Ends.get ?_
      by_cases herr : p.error = true
      · rw [if_pos herr]
        exact hm.pure rfl trivial
      rw [if_neg herr]
      by_cases hargs : AST_MAX_ARGS ≤ items.length + 1
      · rw [if_pos hargs]
        exact hm.fail
      rw [if_neg hargs]
      -- a key that came back NULL only sets the flag
      have hkey : Ends (expression 0 <|> ast_fail) p
          (Parses max_nodes p ast_expr.nodes fun _ _ => True) := by
        refine (hexpr p 0 le_rfl hfuel).orElse (fun _ _ h => h) fun p1 h => ?_
        exact h.1.fail
      refine hm.bind hkey fun key p1 hle1 hm1 _ => ?_
      refine hm1.bind (ast_expect_spec ":") fun _ p2 _ hm2 hlt2 => ?_
      refine hm2.bind (hexpr p2 0 le_rfl (by omega)) fun value p3 hle3 hm3 _ => Ends.get ?_
      have hnodes : items_nodes items + key.nodes + value.nodes
          = items_nodes (items ++ [key, value]) := by
        simp [items_nodes_append, items_nodes, Nat.add_assoc]
      by_cases hcomma : ast_is_delimiter p3 "," = true
      · rw [if_neg (by simp [hcomma])]
        refine hm3.bind (ast_next_lt (not_stuck_of_delimiter hcomma))
          fun _ p4 _ hm4 hlt => Ends.get ?_
        by_cases hclose : ast_is_delimiter p4 "\x7d" = true
        · rw [if_pos hclose]
          exact hm4.pure hnodes trivial
        · rw [if_neg hclose]
          exact ih (items ++ [key, value]) (hm4.cast hnodes) (by omega) (by omega)
      · rw [if_pos (by simp [hcomma])]
        exact hm3.pure hnodes trivial

theorem ast_parse_tuple_spec (hexpr : ParsesExpression max_nodes fuel expression)
    (n : ℕ) (items : List ast_expr) (hm : Moved max_nodes p0 p (items_nodes items + 1))
    (hn : p.measure < n) (hfuel : p.measure < fuel) :
    Ends (ast_parse_tuple expression n items) p
      (Parses max_nodes p0 (fun items => items_nodes items + 1) fun _ _ => True) := by
  induction n generalizing p items with
  | zero => omega
  | succ n ih =>
      unfold ast_parse_tuple
      refine Ends.get ?_
      by_cases hcomma : ast_is_delimiter p "," = true
      · rw [if_neg (by simp [hcomma])]
        -- the comma is what the next turn is paid with
        refine hm.bind (ast_next_lt (not_stuck_of_delimiter hcomma))
          fun _ p1 _ hm1 hlt => Ends.get ?_
        by_cases hclose : ast_is_delimiter p1 ")" = true
        · rw [if_pos hclose]
          exact hm1.pure rfl trivial
        rw [if_neg hclose]
        by_cases hargs : AST_MAX_ARGS ≤ items.length
        · rw [if_pos hargs]
          exact hm1.fail
        rw [if_neg hargs]
        refine hm1.bind (hexpr p1 0 le_rfl (by omega)) fun item p2 hle2 hm2 _ => ?_
        refine ih (items ++ [item]) (hm2.cast ?_) (by omega) (by omega)
        simp [items_nodes_append, items_nodes]
        omega
      · rw [if_pos (by simp [hcomma])]
        exact hm.pure rfl trivial

theorem ast_parse_parenthesis_spec (hexpr : ParsesExpression max_nodes fuel expression)
    (n : ℕ) (hn : p.measure < n) (hfuel : p.measure < fuel) :
    Ends (ast_parse_parenthesis max_nodes expression n) p
      (Parses max_nodes p ast_expr.nodes fun _ _ => True) := by
  have hm : Moved max_nodes p p 0 := Moved.refl p
  refine Ends.get ?_
  by_cases hclose : ast_is_delimiter p ")" = true
  · rw [if_pos hclose]
    refine hm.bind (ast_new_spec p) fun _ p1 hle1 hm1 _ => ?_
    refine hm1.bind (ast_next_spec p1) fun _ p2 hle2 hm2 _ => ?_
    exact hm2.pure rfl trivial
  rw [if_neg hclose]
  refine hm.bind (hexpr p 0 le_rfl hfuel) fun first p1 hle1 hm1 _ => Ends.get ?_
  by_cases hcomma : ast_is_delimiter p1 "," = true
  · rw [if_neg (by simp [hcomma])]
    refine hm1.bind (ast_new_spec p1) fun _ p2 hle2 hm2 _ => ?_
    have htuple := ast_parse_tuple_spec hexpr n [first]
      (hm2.cast (by simp [items_nodes])) (by omega) (by omega)
    refine loop_bind htuple fun items p3 hm3 _ => ?_
    refine hm3.bind (ast_expect_spec ")") fun _ p4 _ hm4 _ => ?_
    exact hm4.pure rfl trivial
  · rw [if_pos (by simp [hcomma])]
    refine hm1.bind (ast_expect_spec ")") fun _ p2 _ hm2 _ => ?_
    exact hm2.pure (Nat.zero_add _) trivial

theorem not_stuck_of_sign (h : ast_is_sign p.current = true) : p.current.stuck = false := by
  simp only [ast_is_sign, Bool.decide_or, Bool.decide_and, Bool.or_eq_true, Bool.and_eq_true,
    decide_eq_true_eq] at h
  rcases h with h | h <;> exact stuck_of_type (by simp [h.1]) (by simp [h.1]) (by simp [h.1])

/-- An expression that is one token. -/
theorem ast_parse_atom_spec {e : ast_expr} (he : e.nodes = 1) :
    Ends (ast_next >>= fun _ => ast_new max_nodes >>= fun _ => pure e) p
      (Parses max_nodes p ast_expr.nodes fun _ _ => True) := by
  refine (Moved.refl p).bind (ast_next_spec p) fun _ p1 _ hm1 _ => ?_
  refine hm1.bind (ast_new_spec p1) fun _ p2 _ hm2 _ => ?_
  exact hm2.pure he.symm trivial

theorem ast_parse_primary_spec (hexpr : ParsesExpression max_nodes fuel expression)
    (n : ℕ) (hn : p.measure < n + 1) (hfuel : p.measure < fuel + 1) :
    Ends (ast_parse_primary max_nodes expression n) p
      (Parses max_nodes p ast_expr.nodes fun _ _ => True) := by
  have hm : Moved max_nodes p p 0 := Moved.refl p
  refine Ends.get ?_
  dsimp only
  split_ifs with h1 h2 h3 h4 h5 h6 h7
  · exact ast_parse_atom_spec rfl
  · exact ast_parse_atom_spec rfl
  · exact ast_parse_atom_spec rfl
  · -- a list
    refine hm.bind (ast_new_spec p) fun _ p1 _ hm1 hp1 => ?_
    have hstuck : p1.current.stuck = false := by rw [hp1.1]; exact not_stuck_of_delimiter h4
    refine hm1.bind (ast_next_lt hstuck) fun _ p2 _ hm2 hlt => ?_
    refine hm2.bind (ast_parse_closed_spec hexpr "]" n (by omega) (by omega))
      fun items p3 _ hm3 _ => ?_
    exact hm3.pure rfl trivial
  · -- a dictionary
    refine hm.bind (ast_new_spec p) fun _ p1 _ hm1 hp1 => ?_
    have hstuck : p1.current.stuck = false := by rw [hp1.1]; exact not_stuck_of_delimiter h5
    refine hm1.bind (ast_next_lt hstuck) fun _ p2 _ hm2 hlt => Ends.get ?_
    have hitems : Ends (if ast_is_delimiter p2 "\x7d" = true then pure []
        else ast_parse_pairs expression n []) p2
        (Parses max_nodes p2 items_nodes fun _ _ => True) := by
      split_ifs
      · exact (Moved.refl p2).pure rfl trivial
      · exact ast_parse_pairs_spec hexpr n [] (Moved.refl p2) (by omega) (by omega)
    refine hm2.bind hitems fun items p3 _ hm3 _ => ?_
    refine hm3.bind (ast_expect_spec "\x7d") fun _ p4 _ hm4 _ => ?_
    exact hm4.pure rfl trivial
  · refine hm.bind (ast_next_lt (not_stuck_of_delimiter h6)) fun _ p1 _ hm1 hlt => ?_
    exact hm1.last (ast_parse_parenthesis_spec hexpr n (by omega) (by omega))
      fun e p2 _ => ⟨Nat.zero_add _, trivial⟩
  · refine hm.bind (ast_next_lt (not_stuck_of_sign h7)) fun _ p1 _ hm1 hlt => ?_
    refine hm1.bind (hexpr p1 7 (by decide) (by omega)) fun operand p2 _ hm2 _ => ?_
    refine hm2.bind (ast_new_spec p2) fun _ p3 _ hm3 _ => ?_
    exact hm3.pure (by simp [ast_expr.nodes]) trivial
  · exact hm.fail

theorem ast_parse_bound_spec (hexpr : ParsesExpression max_nodes fuel expression)
    (delims : List String) (hfuel : p.measure < fuel) :
    Ends (ast_parse_bound expression delims) p
      (Parses max_nodes p bound_nodes fun _ _ => True) := by
  have hm : Moved max_nodes p p 0 := Moved.refl p
  refine Ends.get ?_
  by_cases hdelim : delims.any (ast_is_delimiter p) = true
  · rw [if_pos hdelim]
    exact hm.pure rfl trivial
  · rw [if_neg hdelim]
    refine hm.bind (hexpr p 0 le_rfl hfuel) fun e p1 _ hm1 _ => ?_
    exact hm1.pure (Nat.zero_add _) trivial

theorem ast_parse_subscript_spec (hexpr : ParsesExpression max_nodes fuel expression)
    (node : ast_expr) (hm : Moved max_nodes p0 p node.nodes) (hfuel : p.measure < fuel) :
    Ends (ast_parse_subscript max_nodes expression node) p
      (Parses max_nodes p0 ast_expr.nodes fun _ p' => p'.measure ≤ p.measure) := by
  refine hm.bind (ast_parse_bound_spec hexpr [":"] hfuel) fun start p1 hle1 hm1 _ => Ends.get ?_
  by_cases hcolon : ast_is_delimiter p1 ":" = true
  · rw [if_pos hcolon]
    refine hm1.bind (ast_new_spec p1) fun _ p2 hle2 hm2 _ => ?_
    refine hm2.bind (ast_next_spec p2) fun _ p3 hle3 hm3 _ => ?_
    refine hm3.bind (ast_parse_bound_spec hexpr [":", "]"] (by omega))
      fun stop p4 hle4 hm4 _ => Ends.get ?_
    have hstep : Ends (if ast_is_delimiter p4 ":" = true
        then ast_next >>= fun _ => ast_parse_bound expression ["]"] else pure none) p4
        (Parses max_nodes p4 bound_nodes fun _ _ => True) := by
      split_ifs
      · refine (Moved.refl p4).bind (ast_next_spec p4) fun _ p5 hle5 hm5 _ => ?_
        exact hm5.last (ast_parse_bound_spec hexpr ["]"] (by omega))
          fun _ _ _ => ⟨Nat.zero_add _, trivial⟩
      · exact (Moved.refl p4).pure rfl trivial
    refine hm4.bind hstep fun step p5 hle5 hm5 _ => ?_
    refine hm5.bind (ast_expect_spec "]") fun _ p6 hle6 hm6 _ => ?_
    exact hm6.pure rfl (by omega)
  · rw [if_neg hcolon]
    cases start with
    | none => exact hm1.fail
    | some start =>
        refine hm1.bind (ast_expect_spec "]") fun _ p2 hle2 hm2 _ => ?_
        refine hm2.bind (ast_new_spec p2) fun _ p3 hle3 hm3 _ => ?_
        exact hm3.pure rfl (by omega)

theorem ast_parse_suffixes_spec (hexpr : ParsesExpression max_nodes fuel expression)
    (n : ℕ) (node : ast_expr) (hm : Moved max_nodes p0 p node.nodes)
    (hn : p.measure < n) (hfuel : p.measure < fuel + 1) :
    Ends (ast_parse_suffixes max_nodes expression n node) p
      (Parses max_nodes p0 ast_expr.nodes fun _ _ => True) := by
  induction n generalizing p node with
  | zero => omega
  | succ n ih =>
      unfold ast_parse_suffixes
      refine Ends.get ?_
      -- each suffix takes its first delimiter before it goes round
      split_ifs with herr hcall hsub hmember
      · exact hm.pure rfl trivial
      · refine hm.bind (ast_new_spec p) fun _ p1 hle1 hm1 hp1 => ?_
        have hstuck : p1.current.stuck = false := by rw [hp1.1]; exact not_stuck_of_delimiter hcall
        refine hm1.bind (ast_next_lt hstuck) fun _ p2 _ hm2 hlt => ?_
        refine hm2.bind (ast_parse_closed_spec hexpr ")" n (by omega) (by omega))
          fun args p3 hle3 hm3 _ => ?_
        exact ih (.call node args) hm3 (by omega) (by omega)
      · refine hm.bind (ast_next_lt (not_stuck_of_delimiter hsub)) fun _ p1 _ hm1 hlt => ?_
        refine loop_bind (ast_parse_subscript_spec hexpr node hm1 (by omega))
          fun node' p2 hm2 hle2 => ?_
        exact ih node' hm2 (by omega) (by omega)
      · refine hm.bind (ast_next_lt (not_stuck_of_delimiter hmember))
          fun _ p1 _ hm1 hlt => Ends.get ?_
        by_cases htype : p1.current.type ≠ .TOK_IDENTIFIER
        · rw [if_pos htype]
          exact hm1.fail
        · rw [if_neg htype]
          refine hm1.bind (ast_new_spec p1) fun _ p2 hle2 hm2 _ => ?_
          refine hm2.bind (ast_next_spec p2) fun _ p3 hle3 hm3 _ => ?_
          exact ih (.member node p1.current.text) hm3 (by omega) (by omega)
      · exact hm.pure rfl trivial

theorem ast_parse_postfix_spec (hexpr : ParsesExpression max_nodes fuel expression)
    (n : ℕ) (hn : p.measure < n) (hfuel : p.measure < fuel + 1) :
    Ends ( ast_parse_postfix max_nodes expression n) p
      (Parses max_nodes p ast_expr.nodes fun _ _ => True) := by
  refine (Moved.refl p).bind (ast_parse_primary_spec hexpr n (by omega) hfuel)
    fun node p1 hle1 hm1 _ => ?_
  exact ast_parse_suffixes_spec hexpr n node (hm1.cast (Nat.zero_add _)) (by omega) (by omega)

/-- An operator with a precedence is a token like others. -/
theorem not_stuck_of_precedence {token : token_t} (h : 0 ≤ ast_precedence token) :
    token.stuck = false := by
  unfold ast_precedence at h
  by_cases htype : token.type ≠ .TOK_OPERATOR ∧ token.type ≠ .TOK_KEYWORD
  · rw [if_pos htype] at h
    exact absurd h (by decide)
  · by_cases hop : token.type = .TOK_OPERATOR
    · exact stuck_of_type (by simp [hop]) (by simp [hop]) (by simp [hop])
    · have hkey : token.type = .TOK_KEYWORD := by
        by_contra hkey
        exact htype ⟨hop, hkey⟩
      exact stuck_of_type (by simp [hkey]) (by simp [hkey]) (by simp [hkey])

theorem ast_parse_operators_spec (hexpr : ParsesExpression max_nodes fuel expression)
    {min_prec : ℤ} (hmin : 0 ≤ min_prec) (n : ℕ) (left : ast_expr)
    (hm : Moved max_nodes p0 p left.nodes) (hn : p.measure < n) (hfuel : p.measure < fuel + 1) :
    Ends (ast_parse_operators max_nodes expression min_prec n left) p
      (Parses max_nodes p0 ast_expr.nodes fun _ _ => True) := by
  induction n generalizing p left with
  | zero => omega
  | succ n ih =>
      unfold ast_parse_operators
      refine Ends.get ?_
      split_ifs with herr hprec
      · exact hm.pure rfl trivial
      · exact hm.pure rfl trivial
      all_goals
        have hpos : 0 ≤ ast_precedence p.current := by omega
        refine hm.bind (ast_next_lt (not_stuck_of_precedence hpos)) fun _ p1 _ hm1 hlt => ?_
        refine hm1.bind (hexpr p1 _ (by omega) (by omega)) fun right p2 hle2 hm2 _ => ?_
        refine hm2.bind (ast_new_spec p2) fun _ p3 hle3 hm3 _ => ?_
        exact ih (.binary p.current.text left right) hm3 (by omega) (by omega)

end Expression

theorem ast_parse_expression_spec (max_nodes : Option ℕ) (fuel : ℕ) :
    ParsesExpression max_nodes fuel (ast_parse_expression max_nodes fuel) := by
  induction fuel with
  | zero =>
      intro p min_prec _ hfuel
      omega
  | succ fuel ih =>
      intro p min_prec hmin hfuel
      refine (Moved.refl p).bind (ast_parse_postfix_spec ih (fuel + 1) hfuel hfuel)
        fun left p1 hle1 hm1 _ => ?_
      exact ast_parse_operators_spec ih hmin (fuel + 1) left (hm1.cast (Nat.zero_add _))
        (by omega) (by omega)

/-! ## Statements -/

theorem ast_skip_spec (max_nodes : Option ℕ) {while_ : ast_parser_t → Bool}
    (hstuck : ∀ p, while_ p = true → p.current.stuck = false) (n : ℕ) {p : ast_parser_t}
    (hn : p.measure < n) :
    Ends (ast_skip while_ n) p (Parses max_nodes p (fun _ => 0)
      fun _ p' => p'.error = false → while_ p = true → p'.measure < p.measure) := by
  induction n generalizing p with
  | zero => omega
  | succ n ih =>
      refine Ends.get ?_
      by_cases hgo : (!p.error && while_ p) = true
      · rw [if_pos hgo]
        obtain ⟨-, hw⟩ := Bool.and_eq_true_iff.mp hgo
        refine (Moved.refl p).bind (ast_next_lt (hstuck p hw)) fun _ p1 _ hm1 hlt => ?_
        obtain ⟨r, p2, heval, hr⟩ := ih (by omega : p1.measure < n)
        refine ⟨r, p2, heval, ?_⟩
        cases r with
        | none => exact hm1.null hr
        | some u => exact ⟨hm1.trans hr.1, fun _ _ => lt_of_le_of_lt hr.1.measure hlt⟩
      · rw [if_neg hgo]
        refine (Moved.refl p).pure rfl fun herr hw => absurd ?_ hgo
        rw [herr, hw]
        rfl

theorem ast_skip_newlines_spec {max_nodes : Option ℕ} (n : ℕ) {p : ast_parser_t}
    (hn : p.measure < n) :
    Ends (ast_skip_newlines n) p (Parses max_nodes p (fun _ => 0)
      fun _ p' => p'.error = false → p.current.type = .TOK_NEWLINE → p'.measure < p.measure) := by
  refine (ast_skip_spec max_nodes (fun q hq => ?_) n hn).mono ?_
  · have htype : q.current.type = .TOK_NEWLINE := by simpa using hq
    exact stuck_of_type (by simp [htype]) (by simp [htype]) (by simp [htype])
  · rintro (_ | _) p' h
    · exact h
    · exact ⟨h.1, fun herr htype => h.2 herr (by simpa using htype)⟩

theorem ast_skip_separators_spec {max_nodes : Option ℕ} (n : ℕ) {p : ast_parser_t}
    (hn : p.measure < n) :
    Ends (ast_skip_separators n) p (Parses max_nodes p (fun _ => 0)
      fun _ p' => p'.error = false → p.current.type = .TOK_NEWLINE ∨ ast_is_delimiter p ";" →
        p'.measure < p.measure) := by
  refine (ast_skip_spec max_nodes (fun q hq => ?_) n hn).mono ?_
  · rcases Bool.or_eq_true_iff.mp hq with h | h
    · have htype : q.current.type = .TOK_NEWLINE := by simpa using h
      exact stuck_of_type (by simp [htype]) (by simp [htype]) (by simp [htype])
    · exact not_stuck_of_delimiter h
  · rintro (_ | _) p' h
    · exact h
    · exact ⟨h.1, fun herr hsep => h.2 herr (by simpa using hsep)⟩

/-- The parser of statements, as far as `fuel` reaches. -/
def ParsesStatement (max_nodes : Option ℕ) (fuel : ℕ) (statement : parser ast_stmt) : Prop :=
  ∀ p, p.measure < fuel → Ends statement p (Parses max_nodes p ast_stmt.nodes
    fun stmt p' => ast_is_compound_statement stmt = true → p'.measure < p.measure)

section Statement

variable {max_nodes : Option ℕ} {fuel : ℕ} {statement : parser ast_stmt} {p p0 : ast_parser_t}

/-- The statements of a block, unless one of them ends the source or the block. -/
theorem ast_parse_stmts_spec (hstmt : ParsesStatement max_nodes fuel statement)
    (n : ℕ) (stmts : List ast_stmt) (hm : Moved max_nodes p0 p (1 + stmts_nodes stmts))
    (hpos : 0 < n) (hfuel : p.measure < fuel)
    (hn : ¬(p.error = true ∨ p.current.type = .TOK_DEDENT ∨ p.current.type = .TOK_EOF) →
      p.measure + 1 < n) :
    Ends (ast_parse_stmts statement n stmts) p
      (Parses max_nodes p0 (fun stmts => 1 + stmts_nodes stmts) fun _ _ => True) := by
  induction n generalizing p stmts with
  | zero => omega
  | succ n ih =>
      unfold ast_parse_stmts
      refine Ends.get ?_
      by_cases hend : p.error = true ∨ p.current.type = .TOK_DEDENT ∨ p.current.type = .TOK_EOF
      · rw [if_pos hend]
        exact hm.pure rfl trivial
      rw [if_neg hend]
      have hn' := hn hend
      refine hm.bind (hstmt p hfuel) fun stmt p1 hle1 hm1 hq => Ends.get ?_
      have hnodes : 1 + stmts_nodes stmts + stmt.nodes = 1 + stmts_nodes (stmts ++ [stmt]) := by
        simp [stmts_nodes_append, stmts_nodes, Nat.add_assoc]
      by_cases hnew : p1.current.type = .TOK_NEWLINE
      · rw [if_pos hnew]
        refine hm1.bind (ast_skip_newlines_spec n (by omega)) fun _ p2 hle2 hm2 hq2 => ?_
        refine ih (stmts ++ [stmt]) (hm2.cast hnodes) (by omega) (by omega) fun hgo => ?_
        -- a newline is skipped, unless an error stops the loop
        have herr : p2.error = false := by
          by_contra herr
          exact hgo (Or.inl (by simpa using herr))
        have hlt := hq2 herr hnew
        omega
      · rw [if_neg hnew]
        split_ifs with hbad
        · exact hm1.fail
        · refine ih (stmts ++ [stmt]) (hm1.cast hnodes) (by omega) (by omega) fun hgo => ?_
          have hcomp : ast_is_compound_statement stmt = true := by
            by_contra hcomp
            exact hbad ⟨fun h => hgo (Or.inr (Or.inl h)), fun h => hgo (Or.inr (Or.inr h)), hcomp⟩
          have hlt := hq hcomp
          omega

theorem ast_parse_block_spec (hstmt : ParsesStatement max_nodes fuel statement) (n : ℕ)
    (hn : p.measure + 1 < n) (hfuel : p.measure < fuel) :
    Ends (ast_parse_block max_nodes statement n) p
      (Parses max_nodes p (fun stmts => 1 + stmts_nodes stmts) fun _ _ => True) := by
  refine (Moved.refl p).bind (ast_new_spec p) fun _ p1 hle1 hm1 _ => ?_
  refine hm1.bind (ast_skip_newlines_spec n (by omega)) fun _ p2 hle2 hm2 _ => ?_
  refine loop_bind (ast_parse_stmts_spec hstmt n [] hm2 (by omega) (by omega)
    fun _ => by omega) fun stmts p3 hm3 _ => ?_
  refine hm3.bind (ast_expect_type_spec (by decide) (by decide) (by decide))
    fun _ p4 _ hm4 _ => ?_
  exact hm4.pure rfl trivial

theorem ast_parse_suite_spec (hstmt : ParsesStatement max_nodes fuel statement)
    (hfuel : p.measure < fuel) :
    Ends (ast_parse_suite max_nodes statement fuel) p
      (Parses max_nodes p (fun stmts => 1 + stmts_nodes stmts) fun _ _ => True) := by
  have hcolon : Ends ast_expect_colon_newline_indent p
      (Parses max_nodes p (fun _ => 0) fun _ p' => p'.measure + 3 ≤ p.measure) := by
    refine (Moved.refl p).bind (ast_expect_spec ":") fun _ p1 _ hm1 hlt1 => ?_
    refine hm1.bind (ast_expect_type_spec (by decide) (by decide) (by decide))
      fun _ p2 _ hm2 hlt2 => ?_
    exact hm2.last (ast_expect_type_spec (by decide) (by decide) (by decide))
      fun _ p3 hlt3 => ⟨rfl, by omega⟩
  refine (Moved.refl p).bind hcolon fun _ p1 _ hm1 hle1 => ?_
  exact hm1.last (ast_parse_block_spec hstmt fuel (by omega) (by omega))
    fun stmts p2 _ => ⟨Nat.zero_add _, trivial⟩

theorem ast_parse_if_spec (hstmt : ParsesStatement max_nodes fuel statement)
    (hstuck : p.current.stuck = false) (hfuel : p.measure < fuel + 1) :
    Ends (ast_parse_if max_nodes statement fuel) p
      (Parses max_nodes p ast_stmt.nodes fun _ p' => p'.measure < p.measure) := by
  refine (Moved.refl p).bind (ast_next_lt hstuck) fun _ p1 _ hm1 hlt => ?_
  refine hm1.bind (ast_new_spec p1) fun _ p2 hle2 hm2 _ => ?_
  refine hm2.bind (ast_parse_expression_spec max_nodes fuel p2 0 le_rfl (by omega))
    fun left p3 hle3 hm3 _ => ?_
  refine hm3.bind (ast_parse_suite_spec hstmt (by omega)) fun body p4 hle4 hm4 _ => Ends.get ?_
  split_ifs with helif helse
  · refine hm4.bind (hstmt p4 (by omega)) fun elif p5 hle5 hm5 _ => ?_
    refine hm5.bind (ast_new_spec p5) fun _ p6 hle6 hm6 _ => ?_
    refine hm6.pure ?_ (by omega)
    simp only [ast_stmt.nodes, body_nodes, stmts_nodes]
    omega
  · refine hm4.bind (ast_next_spec p4) fun _ p5 hle5 hm5 _ => ?_
    refine hm5.bind (ast_parse_suite_spec hstmt (by omega)) fun else_body p6 hle6 hm6 _ => ?_
    refine hm6.pure ?_ (by omega)
    simp only [ast_stmt.nodes, body_nodes]
    omega
  · refine hm4.pure ?_ (by omega)
    simp only [ast_stmt.nodes, body_nodes]
    omega

/-- A body, or what is left where it came back NULL. -/
theorem body_bind {k : ℕ} {g : Option (List ast_stmt) → parser ast_stmt}
    {Q' : ast_stmt → ast_parser_t → Prop} (hm : Moved max_nodes p0 p k)
    (hstmt : ParsesStatement max_nodes fuel statement) (hfuel : p.measure < fuel)
    (hg : ∀ body p', p'.measure ≤ p.measure → Moved max_nodes p0 p' (k + body_nodes body) →
      Ends (g body) p' (Parses max_nodes p0 ast_stmt.nodes Q')) :
    Ends (optional (ast_parse_suite max_nodes statement fuel) >>= g) p
      (Parses max_nodes p0 ast_stmt.nodes Q') :=
  hm.bind_optional (ast_parse_suite_spec hstmt hfuel)
    (fun stmts p' hle hm' _ => hg (some stmts) p' hle hm')
    (fun p' hle hm' _ => hg none p' hle hm')

theorem ast_parse_while_spec (hstmt : ParsesStatement max_nodes fuel statement)
    (hstuck : p.current.stuck = false) (hfuel : p.measure < fuel + 1) :
    Ends (ast_parse_while max_nodes statement fuel) p
      (Parses max_nodes p ast_stmt.nodes fun _ p' => p'.measure < p.measure) := by
  refine (Moved.refl p).bind (ast_next_lt hstuck) fun _ p1 _ hm1 hlt => ?_
  refine hm1.bind (ast_new_spec p1) fun _ p2 hle2 hm2 _ => ?_
  refine hm2.bind (ast_parse_expression_spec max_nodes fuel p2 0 le_rfl (by omega))
    fun left p3 hle3 hm3 _ => ?_
  refine body_bind hm3 hstmt (by omega) fun body p4 hle4 hm4 => ?_
  exact hm4.pure (by simp [ast_stmt.nodes]) (by omega)

theorem ast_parse_for_spec (hstmt : ParsesStatement max_nodes fuel statement)
    (hstuck : p.current.stuck = false) (hfuel : p.measure < fuel + 1) :
    Ends (ast_parse_for max_nodes statement fuel) p
      (Parses max_nodes p ast_stmt.nodes fun _ p' => p'.measure < p.measure) := by
  refine (Moved.refl p).bind (ast_next_lt hstuck) fun _ p1 _ hm1 hlt => Ends.get ?_
  by_cases htype : p1.current.type ≠ .TOK_IDENTIFIER
  · rw [if_pos htype]
    exact hm1.fail
  rw [if_neg htype]
  refine hm1.bind (ast_new_spec p1) fun _ p2 hle2 hm2 _ => ?_
  refine hm2.bind (ast_new_spec p2) fun _ p3 hle3 hm3 _ => ?_
  refine hm3.bind (ast_next_spec p3) fun _ p4 hle4 hm4 _ => Ends.get ?_
  split_ifs
  · exact hm4.fail
  refine hm4.bind (ast_next_spec p4) fun _ p5 hle5 hm5 _ => ?_
  refine hm5.bind (ast_parse_expression_spec max_nodes fuel p5 0 le_rfl (by omega))
    fun right p6 hle6 hm6 _ => ?_
  refine body_bind hm6 hstmt (by omega) fun body p7 hle7 hm7 => ?_
  exact hm7.pure (by simp [ast_stmt.nodes]) (by omega)

theorem ast_parse_params_spec (n : ℕ) (args : List String)
    (hm : Moved max_nodes p0 p args.length) (hn : p.measure < n) :
    Ends (ast_parse_params max_nodes n args) p
      (Parses max_nodes p0 List.length fun _ _ => True) := by
  induction n generalizing p args with
  | zero => omega
  | succ n ih =>
      unfold ast_parse_params
      refine Ends.get ?_
      split_ifs with hend hbad
      · exact hm.pure rfl trivial
      · exact hm.fail
      have htype : p.current.type = .TOK_IDENTIFIER := by
        by_contra htype
        exact hbad (Or.inr htype)
      refine hm.bind (ast_new_spec p) fun _ p1 hle1 hm1 hp1 => ?_
      have hstuck : p1.current.stuck = false := by
        rw [hp1.1]
        exact stuck_of_type (by simp [htype]) (by simp [htype]) (by simp [htype])
      refine hm1.bind (ast_next_lt hstuck) fun _ p2 _ hm2 hlt => Ends.get ?_
      have hnodes : args.length + 1 = (args ++ [p.current.text]).length := by simp
      split_ifs with hcomma hclose
      · refine hm2.bind (ast_next_spec p2) fun _ p3 hle3 hm3 _ => ?_
        exact ih _ (hm3.cast hnodes) (by omega)
      · exact hm2.fail
      · exact ih _ (hm2.cast hnodes) (by omega)

theorem ast_parse_def_spec (hstmt : ParsesStatement max_nodes fuel statement)
    (hstuck : p.current.stuck = false) (hfuel : p.measure < fuel + 1) :
    Ends (ast_parse_def max_nodes statement fuel) p
      (Parses max_nodes p ast_stmt.nodes fun _ p' => p'.measure < p.measure) := by
  refine (Moved.refl p).bind (ast_next_lt hstuck) fun _ p1 _ hm1 hlt => Ends.get ?_
  by_cases htype : p1.current.type ≠ .TOK_IDENTIFIER
  · rw [if_pos htype]
    exact hm1.fail
  rw [if_neg htype]
  refine hm1.bind (ast_new_spec p1) fun _ p2 hle2 hm2 _ => ?_
  refine hm2.bind (ast_next_spec p2) fun _ p3 hle3 hm3 _ => ?_
  refine hm3.bind (ast_expect_spec "(") fun _ p4 hle4 hm4 _ => ?_
  refine hm4.bind (ast_parse_params_spec fuel [] (Moved.refl p4) (by omega))
    fun args p5 hle5 hm5 _ => ?_
  refine hm5.bind (ast_expect_spec ")") fun _ p6 hle6 hm6 _ => ?_
  refine body_bind hm6 hstmt (by omega) fun body p7 hle7 hm7 => ?_
  exact hm7.pure (by simp [ast_stmt.nodes]) (by omega)

end Statement

section Program

variable {max_nodes : Option ℕ} {fuel : ℕ} {p p0 : ast_parser_t}

theorem ast_parse_return_spec (hstuck : p.current.stuck = false) (hfuel : p.measure < fuel + 1) :
    Ends (ast_parse_return max_nodes fuel) p
      (Parses max_nodes p ast_stmt.nodes
        fun stmt _ => ast_is_compound_statement stmt = true → False) := by
  refine (Moved.refl p).bind (ast_next_lt hstuck) fun _ p1 _ hm1 hlt => ?_
  refine hm1.bind (ast_new_spec p1) fun _ p2 hle2 hm2 _ => Ends.get ?_
  split_ifs
  · exact hm2.pure rfl (by simp [ast_is_compound_statement])
  · refine hm2.bind_optional (ast_parse_expression_spec max_nodes fuel p2 0 le_rfl (by omega))
      (fun left p3 _ hm3 _ => ?_) (fun p3 _ hm3 _ => ?_)
    · exact hm3.pure (by simp [ast_stmt.nodes, bound_nodes]) (by simp [ast_is_compound_statement])
    · exact hm3.pure (by simp [ast_stmt.nodes, bound_nodes]) (by simp [ast_is_compound_statement])

theorem ast_parse_keyword_spec {stmt : ast_stmt} (hsize : stmt.nodes = 1)
    (hcomp : ast_is_compound_statement stmt = false) :
    Ends (ast_parse_keyword max_nodes stmt) p
      (Parses max_nodes p ast_stmt.nodes
        fun stmt _ => ast_is_compound_statement stmt = true → False) := by
  refine (Moved.refl p).bind (ast_next_spec p) fun _ p1 hle1 hm1 _ => ?_
  refine hm1.bind (ast_new_spec p1) fun _ p2 hle2 hm2 _ => ?_
  exact hm2.pure hsize.symm (by simp [hcomp])

theorem ast_parse_assignment_or_expr_spec (hfuel : p.measure < fuel) :
    Ends (ast_parse_assignment_or_expr max_nodes fuel) p
      (Parses max_nodes p ast_expr.nodes fun _ _ => True) := by
  refine (Moved.refl p).bind (ast_parse_expression_spec max_nodes fuel p 0 le_rfl hfuel)
    fun left p1 hle1 hm1 _ => Ends.get ?_
  split_ifs
  · exact hm1.fail
  · refine hm1.bind (ast_next_spec p1) fun _ p2 hle2 hm2 _ => ?_
    refine hm2.bind (ast_parse_expression_spec max_nodes fuel p2 0 le_rfl (by omega))
      fun value p3 hle3 hm3 _ => ?_
    refine hm3.bind (ast_new_spec p3) fun _ p4 hle4 hm4 _ => ?_
    exact hm4.pure (by simp [ast_expr.nodes]) trivial
  · exact hm1.pure (Nat.zero_add _) trivial

/-- The production for a simple statement, as one of those for statements. -/
theorem Ends.simple {f : parser ast_stmt}
    (h : Ends f p (Parses max_nodes p ast_stmt.nodes
      fun stmt _ => ast_is_compound_statement stmt = true → False)) :
    Ends f p (Parses max_nodes p ast_stmt.nodes
      fun stmt p' => ast_is_compound_statement stmt = true → p'.measure < p.measure) := by
  refine h.mono ?_
  rintro (_ | stmt) p' h
  · exact h
  · exact ⟨h.1, fun hcomp => (h.2 hcomp).elim⟩

/-- The production for a compound statement. -/
theorem Ends.compound {f : parser ast_stmt}
    (h : Ends f p (Parses max_nodes p ast_stmt.nodes fun _ p' => p'.measure < p.measure)) :
    Ends f p (Parses max_nodes p ast_stmt.nodes
      fun stmt p' => ast_is_compound_statement stmt = true → p'.measure < p.measure) := by
  refine h.mono ?_
  rintro (_ | stmt) p' h
  · exact h
  · exact ⟨h.1, fun _ => h.2⟩

theorem ast_parse_statement_spec (max_nodes : Option ℕ) (fuel : ℕ) :
    ParsesStatement max_nodes fuel (ast_parse_statement max_nodes fuel) := by
  induction fuel with
  | zero =>
      intro p hfuel
      omega
  | succ fuel ih =>
      intro p hfuel
      refine Ends.get ?_
      split_ifs with hif hwhile hfor hdef hreturn hbreak hcontinue hpass
      · have hstuck : p.current.stuck = false := by
          rcases Bool.or_eq_true_iff.mp hif with h | h <;> exact not_stuck_of_keyword h
        exact Ends.compound (ast_parse_if_spec ih hstuck hfuel)
      · exact Ends.compound (ast_parse_while_spec ih (not_stuck_of_keyword hwhile) hfuel)
      · exact Ends.compound (ast_parse_for_spec ih (not_stuck_of_keyword hfor) hfuel)
      · exact Ends.compound (ast_parse_def_spec ih (not_stuck_of_keyword hdef) hfuel)
      · exact Ends.simple (ast_parse_return_spec (not_stuck_of_keyword hreturn) hfuel)
      · exact Ends.simple (ast_parse_keyword_spec rfl rfl)
      · exact Ends.simple (ast_parse_keyword_spec rfl rfl)
      · exact Ends.simple (ast_parse_keyword_spec rfl rfl)
      · refine (Moved.refl p).bind (ast_parse_assignment_or_expr_spec hfuel)
          fun expr p1 hle1 hm1 _ => ?_
        refine hm1.bind (ast_new_spec p1) fun _ p2 hle2 hm2 _ => ?_
        exact hm2.pure (by simp [ast_stmt.nodes]) (by simp [ast_is_compound_statement])

/-- The error flag is set; what was parsed so far is returned. -/
theorem flag_spec {k : ℕ} {stmts : List ast_stmt} {size : List ast_stmt → ℕ}
    {Q : List ast_stmt → ast_parser_t → Prop} (hm : Moved max_nodes p0 p k)
    (hq : ∀ p', p'.error = true → Q stmts p') :
    Ends (modify (fun p => { p with error := true }) >>= fun _ => pure stmts) p
      (Parses max_nodes p0 size Q) :=
  Ends.modify (Ends.pure ⟨⟨hm.measure, fun h => absurd h (by simp), hm.count, hm.bound,
    fun h => absurd h (by simp), fun h => absurd h (by simp)⟩, hq _ rfl⟩)

/-- Without a bound on the pool and without an error the loop ends at the end of the source. -/
theorem ast_parse_statements_spec (n : ℕ) (stmts : List ast_stmt)
    (hm : Moved max_nodes p0 p (1 + stmts_nodes stmts)) (hpos : 0 < n) (hfuel : p.measure < fuel)
    (hn : ¬(p.error = true ∨ p.current.type = .TOK_EOF) → p.measure + 1 < n) :
    Ends (ast_parse_statements max_nodes fuel n stmts) p
      (Parses max_nodes p0 (fun stmts => 1 + stmts_nodes stmts)
        fun _ p' => p'.error = false → max_nodes = none → p'.current.type = .TOK_EOF) := by
  induction n generalizing p stmts with
  | zero => omega
  | succ n ih =>
      unfold ast_parse_statements
      refine Ends.get ?_
      by_cases hend : p.error = true ∨ p.current.type = .TOK_EOF
      · rw [if_pos hend]
        refine hm.pure rfl fun herr _ => ?_
        rcases hend with h | h
        · rw [herr] at h
          cases h
        · exact h
      rw [if_neg hend]
      have hn' := hn hend
      by_cases hindent : p.current.type = .TOK_INDENT ∨ p.current.type = .TOK_DEDENT
      · rw [if_pos hindent]
        refine flag_spec hm fun p' h herr => ?_
        rw [h] at herr
        cases herr
      rw [if_neg hindent]
      -- a statement that needs no separator has taken a token itself
      refine hm.bind_optional (ast_parse_statement_spec max_nodes fuel p hfuel)
        (fun stmt p1 hle1 hm1 hq => ?_) (fun p1 _ hm1 hnone => ?_)
      · refine Ends.get ?_
        have hnodes : 1 + stmts_nodes stmts + stmt.nodes = 1 + stmts_nodes (stmts ++ [stmt]) := by
          simp [stmts_nodes_append, stmts_nodes, Nat.add_assoc]
        by_cases hsep : p1.current.type = .TOK_NEWLINE ∨ ast_is_delimiter p1 ";" = true
        · rw [if_pos hsep]
          refine hm1.bind (ast_skip_separators_spec fuel (by omega)) fun _ p2 hle2 hm2 hq2 => ?_
          refine ih (stmts ++ [stmt]) (hm2.cast hnodes) (by omega) (by omega) fun hgo => ?_
          have herr : p2.error = false := by
            by_contra herr
            exact hgo (Or.inl (by simpa using herr))
          have hlt := hq2 herr hsep
          omega
        rw [if_neg hsep]
        by_cases hbad : p1.current.type ≠ .TOK_EOF ∧ ¬ast_is_compound_statement stmt = true
        · rw [if_pos hbad]
          refine flag_spec hm1 fun p' h herr => ?_
          rw [h] at herr
          cases herr
        · rw [if_neg hbad]
          refine ih (stmts ++ [stmt]) (hm1.cast hnodes) (by omega) (by omega) fun hgo => ?_
          have hcomp : ast_is_compound_statement stmt = true := by
            by_contra hcomp
            exact hbad ⟨fun h => hgo (Or.inr h), hcomp⟩
          have hlt := hq hcomp
          omega
      · -- the loop was left for want of a node
        exact hm1.pure rfl fun herr hmax => absurd hmax (hnone herr)

/-- The source is the measure of what there is to do. -/
theorem parser_init_measure (source : List Char) :
    (parser_init source).measure = 2 * source.length := by
  simp [ast_parser_t.measure, parser_init, lexer_measure, lexer_init, token_t.stuck,
    lexer_make_token]

theorem ast_program_spec (max_nodes : Option ℕ) (source : List Char) :
    Ends (ast_program max_nodes (2 * source.length + 2)) (parser_init source)
      (Parses max_nodes (parser_init source) (fun stmts => 1 + stmts_nodes stmts)
        fun _ p' => p'.error = false → max_nodes = none → p'.current.type = .TOK_EOF) := by
  have hstart := parser_init_measure source
  refine (Moved.refl _).bind (ast_next_spec _) fun _ p1 hle1 hm1 _ => ?_
  refine hm1.bind (ast_new_spec p1) fun _ p2 hle2 hm2 _ => ?_
  refine hm2.bind (ast_skip_separators_spec _ (by omega)) fun _ p3 hle3 hm3 _ => ?_
  exact ast_parse_statements_spec _ [] hm3 (by omega) (by omega) fun _ => by omega

end Program

/-! ## The pool of the code and the unbounded one -/

section Pool

variable {limit : ℕ}

/-- With a pool of `limit` nodes the production does the same, as long as they suffice. -/
def Same {α : Type} (limit : ℕ) (f g : parser α) : Prop :=
  Follows ast_parser_t.ast_node_count limit f g

theorem ast_next_same : Same limit ast_next ast_next := Follows.modify fun _ => rfl

theorem ast_fail_same {α : Type} : Same limit (ast_fail : parser α) ast_fail := by
  refine Follows.bind (Follows.modify ?_) fun _ => Follows.null
  exact fun _ => rfl

theorem ast_new_same : Same limit (ast_new none) (ast_new (some limit)) := by
  rintro s r s' heval
  cases heval
  refine ⟨Nat.le_succ _, fun hle => ?_⟩
  have hfree : pool_full (some limit) s.ast_node_count = false := by
    simp only [pool_full, decide_eq_false_iff_not, not_le]
    exact hle
  show eval (ite (pool_full (some limit) s.ast_node_count = true) _ _) s = _
  rw [hfree]
  rfl

theorem ast_expect_same (delim : String) : Same limit (ast_expect delim) (ast_expect delim) :=
  Follows.get.bind fun _ => Follows.ite ast_next_same ast_fail_same

theorem ast_expect_type_same (type : token_type_t) :
    Same limit (ast_expect_type type) (ast_expect_type type) :=
  Follows.get.bind fun _ => Follows.ite ast_next_same ast_fail_same

theorem ast_skip_same (while_ : ast_parser_t → Bool) (n : ℕ) :
    Same limit (ast_skip while_ n) (ast_skip while_ n) := by
  induction n with
  | zero => exact Follows.diverge
  | succ n ih =>
      refine Follows.get.bind fun s => Follows.ite ?_ (Follows.pure _)
      exact ast_next_same.bind fun _ => ih

theorem optional_same {α : Type} {f g : parser α} (h : Same limit f g) :
    Same limit (optional f) (optional g) :=
  (h.bind fun _ => Follows.pure _).orElse (Follows.pure _)

section Expression

variable {f g : ℤ → parser ast_expr} (h : ∀ min_prec, Same limit (f min_prec) (g min_prec))

include h

theorem ast_parse_items_same (close : String) (n : ℕ) (items : List ast_expr) :
    Same limit (ast_parse_items f close n items) (ast_parse_items g close n items) := by
  induction n generalizing items with
  | zero => exact Follows.diverge
  | succ n ih =>
      refine Follows.get.bind fun p => Follows.ite (Follows.pure _) ?_
      refine Follows.ite ast_fail_same ?_
      refine (h 0).bind fun item => Follows.get.bind fun p1 => Follows.ite (Follows.pure _) ?_
      refine ast_next_same.bind fun _ => Follows.get.bind fun p2 => Follows.ite (Follows.pure _) ?_
      exact ih _

theorem ast_parse_closed_same (close : String) (n : ℕ) :
    Same limit (ast_parse_closed f close n) (ast_parse_closed g close n) := by
  refine Follows.get.bind fun p => ?_
  refine (Follows.ite (Follows.pure _) (ast_parse_items_same h close n [])).bind fun items => ?_
  exact (ast_expect_same close).bind fun _ => Follows.pure _

theorem ast_parse_pairs_same (n : ℕ) (items : List ast_expr) :
    Same limit (ast_parse_pairs f n items) (ast_parse_pairs g n items) := by
  induction n generalizing items with
  | zero => exact Follows.diverge
  | succ n ih =>
      refine Follows.get.bind fun p => Follows.ite (Follows.pure _) ?_
      refine Follows.ite ast_fail_same ?_
      refine ((h 0).orElse ast_fail_same).bind fun key => ?_
      refine (ast_expect_same ":").bind fun _ => ?_
      refine (h 0).bind fun value => Follows.get.bind fun p1 => Follows.ite (Follows.pure _) ?_
      refine ast_next_same.bind fun _ => Follows.get.bind fun p2 => Follows.ite (Follows.pure _) ?_
      exact ih _

theorem ast_parse_tuple_same (n : ℕ) (items : List ast_expr) :
    Same limit (ast_parse_tuple f n items) (ast_parse_tuple g n items) := by
  induction n generalizing items with
  | zero => exact Follows.diverge
  | succ n ih =>
      refine Follows.get.bind fun p => Follows.ite (Follows.pure _) ?_
      refine ast_next_same.bind fun _ => Follows.get.bind fun p1 => Follows.ite (Follows.pure _) ?_
      refine Follows.ite ast_fail_same ?_
      exact (h 0).bind fun item => ih _

theorem ast_parse_parenthesis_same (n : ℕ) :
    Same limit (ast_parse_parenthesis none f n) (ast_parse_parenthesis (some limit) g n) := by
  refine Follows.get.bind fun p => Follows.ite ?_ ?_
  · exact ast_new_same.bind fun _ => ast_next_same.bind fun _ => Follows.pure _
  refine (h 0).bind fun first => Follows.get.bind fun p1 => Follows.ite ?_ ?_
  · exact (ast_expect_same ")").bind fun _ => Follows.pure _
  · refine ast_new_same.bind fun _ => (ast_parse_tuple_same h n [first]).bind fun items => ?_
    exact (ast_expect_same ")").bind fun _ => Follows.pure _

theorem ast_parse_primary_same (n : ℕ) :
    Same limit (ast_parse_primary none f n) (ast_parse_primary (some limit) g n) := by
  have hatom : ∀ e : ast_expr, Same limit (ast_next >>= fun _ => ast_new none >>= fun _ => pure e)
      (ast_next >>= fun _ => ast_new (some limit) >>= fun _ => pure e) :=
    fun e => ast_next_same.bind fun _ => ast_new_same.bind fun _ => Follows.pure e
  refine Follows.get.bind fun p => Follows.ite (hatom _) (Follows.ite (hatom _) (Follows.ite (hatom _) ?_))
  refine Follows.ite ?_ (Follows.ite ?_ (Follows.ite ?_ (Follows.ite ?_ ast_fail_same)))
  · refine ast_new_same.bind fun _ => ast_next_same.bind fun _ => ?_
    exact (ast_parse_closed_same h "]" n).bind fun items => Follows.pure _
  · refine ast_new_same.bind fun _ => ast_next_same.bind fun _ => Follows.get.bind fun p1 => ?_
    refine (Follows.ite (Follows.pure _) (ast_parse_pairs_same h n [])).bind fun items => ?_
    exact (ast_expect_same _).bind fun _ => Follows.pure _
  · exact ast_next_same.bind fun _ => ast_parse_parenthesis_same h n
  · exact ast_next_same.bind fun _ => (h 7).bind fun operand => ast_new_same.bind fun _ =>
      Follows.pure _

theorem ast_parse_bound_same (delims : List String) :
    Same limit (ast_parse_bound f delims) (ast_parse_bound g delims) :=
  Follows.get.bind fun _ => Follows.ite (Follows.pure _) ((h 0).bind fun _ => Follows.pure _)

theorem ast_parse_subscript_same (node : ast_expr) :
    Same limit (ast_parse_subscript none f node) (ast_parse_subscript (some limit) g node) := by
  refine (ast_parse_bound_same h [":"]).bind fun start => Follows.get.bind fun p => Follows.ite ?_ ?_
  · refine ast_new_same.bind fun _ => ast_next_same.bind fun _ => ?_
    refine (ast_parse_bound_same h [":", "]"]).bind fun stop => Follows.get.bind fun p1 => ?_
    refine (Follows.ite (ast_next_same.bind fun _ => ast_parse_bound_same h ["]"])
      (Follows.pure none)).bind fun step => ?_
    exact (ast_expect_same "]").bind fun _ => Follows.pure _
  · cases start with
    | none => exact ast_fail_same
    | some start =>
        exact (ast_expect_same "]").bind fun _ => ast_new_same.bind fun _ => Follows.pure _

theorem ast_parse_suffixes_same (n : ℕ) (node : ast_expr) :
    Same limit (ast_parse_suffixes none f n node) (ast_parse_suffixes (some limit) g n node) := by
  induction n generalizing node with
  | zero => exact Follows.diverge
  | succ n ih =>
      refine Follows.get.bind fun p => Follows.ite (Follows.pure _) (Follows.ite ?_ (Follows.ite ?_
        (Follows.ite ?_ (Follows.pure _))))
      · refine ast_new_same.bind fun _ => ast_next_same.bind fun _ => ?_
        exact (ast_parse_closed_same h ")" n).bind fun args => ih _
      · exact ast_next_same.bind fun _ => (ast_parse_subscript_same h node).bind fun node => ih _
      · refine ast_next_same.bind fun _ => Follows.get.bind fun p1 => Follows.ite ast_fail_same ?_
        exact ast_new_same.bind fun _ => ast_next_same.bind fun _ => ih _

theorem ast_parse_operators_same (min_prec : ℤ) (n : ℕ) (left : ast_expr) :
    Same limit (ast_parse_operators none f min_prec n left)
      (ast_parse_operators (some limit) g min_prec n left) := by
  induction n generalizing left with
  | zero => exact Follows.diverge
  | succ n ih =>
      refine Follows.get.bind fun p => Follows.ite (Follows.pure _) (Follows.ite (Follows.pure _) ?_)
      exact ast_next_same.bind fun _ => (h _).bind fun right => ast_new_same.bind fun _ => ih _

end Expression

theorem ast_parse_expression_same (fuel : ℕ) (min_prec : ℤ) :
    Same limit (ast_parse_expression none fuel min_prec)
      (ast_parse_expression (some limit) fuel min_prec) := by
  induction fuel generalizing min_prec with
  | zero => exact Follows.diverge
  | succ fuel ih =>
      refine Follows.bind ?_ fun left => ast_parse_operators_same ih min_prec (fuel + 1) left
      exact (ast_parse_primary_same ih (fuel + 1)).bind
        fun node => ast_parse_suffixes_same ih (fuel + 1) node

theorem ast_parse_assignment_or_expr_same (fuel : ℕ) :
    Same limit (ast_parse_assignment_or_expr none fuel)
      (ast_parse_assignment_or_expr (some limit) fuel) := by
  refine (ast_parse_expression_same fuel 0).bind fun left => Follows.get.bind fun p =>
    Follows.ite (Follows.ite ast_fail_same ?_) (Follows.pure _)
  exact ast_next_same.bind fun _ => (ast_parse_expression_same fuel 0).bind fun value =>
    ast_new_same.bind fun _ => Follows.pure _

section Statement

variable {f g : parser ast_stmt} (h : Same limit f g)

include h

theorem ast_parse_stmts_same (n : ℕ) (stmts : List ast_stmt) :
    Same limit (ast_parse_stmts f n stmts) (ast_parse_stmts g n stmts) := by
  induction n generalizing stmts with
  | zero => exact Follows.diverge
  | succ n ih =>
      refine Follows.get.bind fun p => Follows.ite (Follows.pure _) ?_
      refine Follows.bind h fun stmt => Follows.get.bind fun p1 => Follows.ite ?_ ?_
      · exact (ast_skip_same _ n).bind fun _ => ih _
      · exact Follows.ite ast_fail_same (ih _)

theorem ast_parse_suite_same (n : ℕ) :
    Same limit (ast_parse_suite none f n) (ast_parse_suite (some limit) g n) := by
  refine Follows.bind ?_ fun _ => ?_
  · exact (ast_expect_same ":").bind fun _ => (ast_expect_type_same _).bind fun _ =>
      ast_expect_type_same _
  · refine ast_new_same.bind fun _ => (ast_skip_same _ n).bind fun _ => ?_
    exact (ast_parse_stmts_same h n []).bind fun stmts => (ast_expect_type_same _).bind fun _ =>
      Follows.pure _

theorem ast_parse_if_same (n : ℕ) :
    Same limit (ast_parse_if none f n) (ast_parse_if (some limit) g n) := by
  refine ast_next_same.bind fun _ => ast_new_same.bind fun _ => ?_
  refine (ast_parse_expression_same n 0).bind fun left => ?_
  refine (ast_parse_suite_same h n).bind fun body => Follows.get.bind fun p => ?_
  refine Follows.ite ?_ (Follows.ite ?_ (Follows.pure _))
  · exact Follows.bind h fun elif => ast_new_same.bind fun _ => Follows.pure _
  · exact ast_next_same.bind fun _ => (ast_parse_suite_same h n).bind fun body => Follows.pure _

theorem ast_parse_while_same (n : ℕ) :
    Same limit (ast_parse_while none f n) (ast_parse_while (some limit) g n) := by
  refine ast_next_same.bind fun _ => ast_new_same.bind fun _ => ?_
  refine (ast_parse_expression_same n 0).bind fun left => ?_
  exact (optional_same (ast_parse_suite_same h n)).bind fun body => Follows.pure _

theorem ast_parse_for_same (n : ℕ) :
    Same limit (ast_parse_for none f n) (ast_parse_for (some limit) g n) := by
  refine ast_next_same.bind fun _ => Follows.get.bind fun p => Follows.ite ast_fail_same ?_
  refine ast_new_same.bind fun _ => ast_new_same.bind fun _ => ast_next_same.bind fun _ => ?_
  refine Follows.get.bind fun p1 => Follows.ite ast_fail_same (ast_next_same.bind fun _ => ?_)
  refine (ast_parse_expression_same n 0).bind fun right => ?_
  exact (optional_same (ast_parse_suite_same h n)).bind fun body => Follows.pure _

omit h in
theorem ast_parse_params_same (n : ℕ) (args : List String) :
    Same limit (ast_parse_params none n args) (ast_parse_params (some limit) n args) := by
  induction n generalizing args with
  | zero => exact Follows.diverge
  | succ n ih =>
      refine Follows.get.bind fun p => Follows.ite (Follows.pure _) (Follows.ite ast_fail_same ?_)
      refine ast_new_same.bind fun _ => ast_next_same.bind fun _ => Follows.get.bind fun p1 => ?_
      exact Follows.ite (ast_next_same.bind fun _ => ih _) (Follows.ite ast_fail_same (ih _))

theorem ast_parse_def_same (n : ℕ) :
    Same limit (ast_parse_def none f n) (ast_parse_def (some limit) g n) := by
  refine ast_next_same.bind fun _ => Follows.get.bind fun p => Follows.ite ast_fail_same ?_
  refine ast_new_same.bind fun _ => ast_next_same.bind fun _ => (ast_expect_same "(").bind fun _ => ?_
  refine (ast_parse_params_same n []).bind fun args => (ast_expect_same ")").bind fun _ => ?_
  exact (optional_same (ast_parse_suite_same h n)).bind fun body => Follows.pure _

end Statement

theorem ast_parse_statement_same (fuel : ℕ) :
    Same limit (ast_parse_statement none fuel) (ast_parse_statement (some limit) fuel) := by
  induction fuel with
  | zero => exact Follows.diverge
  | succ fuel ih =>
      have hkeyword : ∀ stmt, Same limit (ast_parse_keyword none stmt)
          (ast_parse_keyword (some limit) stmt) :=
        fun stmt => ast_next_same.bind fun _ => ast_new_same.bind fun _ => Follows.pure _
      refine Follows.get.bind fun p => Follows.ite (ast_parse_if_same ih fuel) ?_
      refine Follows.ite (ast_parse_while_same ih fuel) ?_
      refine Follows.ite (ast_parse_for_same ih fuel) ?_
      refine Follows.ite (ast_parse_def_same ih fuel) (Follows.ite ?_ ?_)
      · refine ast_next_same.bind fun _ => ast_new_same.bind fun _ => Follows.get.bind fun p1 => ?_
        refine Follows.ite (Follows.pure _) ?_
        exact (optional_same (ast_parse_expression_same fuel 0)).bind fun left => Follows.pure _
      refine Follows.ite (hkeyword _) (Follows.ite (hkeyword _) (Follows.ite (hkeyword _) ?_))
      exact (ast_parse_assignment_or_expr_same (fuel + 1)).bind fun expr =>
        ast_new_same.bind fun _ => Follows.pure _

theorem ast_parse_statements_same (fuel n : ℕ) (stmts : List ast_stmt) :
    Same limit (ast_parse_statements none fuel n stmts)
      (ast_parse_statements (some limit) fuel n stmts) := by
  induction n generalizing stmts with
  | zero => exact Follows.diverge
  | succ n ih =>
      have hflag : ∀ stmts : List ast_stmt,
          Same limit (modify (fun p => { p with error := true }) >>= fun _ => pure stmts)
            (modify (fun p => { p with error := true }) >>= fun _ => pure stmts) := by
        refine fun stmts => Follows.bind (Follows.modify ?_) fun _ => Follows.pure _
        exact fun _ => rfl
      refine Follows.get.bind fun p => Follows.ite (Follows.pure _) (Follows.ite (hflag _) ?_)
      refine (optional_same (ast_parse_statement_same fuel)).bind fun stmt => ?_
      cases stmt with
      | none => exact Follows.pure _
      | some stmt =>
          refine Follows.get.bind fun p1 => Follows.ite ?_ (Follows.ite (hflag _) (ih _))
          exact (ast_skip_same _ fuel).bind fun _ => ih _

theorem ast_program_same (fuel : ℕ) :
    Same limit (ast_program none fuel) (ast_program (some limit) fuel) :=
  ast_next_same.bind fun _ => ast_new_same.bind fun _ => (ast_skip_same _ fuel).bind fun _ =>
    ast_parse_statements_same fuel fuel []

end Pool

end SysInC.Pythont
