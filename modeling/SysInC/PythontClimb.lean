/-
The run of `ast_parse_expression` over the tokens of an expression.

The loop over the operators is entered with what was read of the left operand, so that a run over
an expression is one that goes on with that loop behind it (`Leads`). Signs that stand in front of
an expression are handed down to its first primary. What is left in the end is `built`, for every
grammatical expression (`expression_run`); so the code agrees with Python's grammar on the plain
ones and, but for errors, on no others (`prescribed_iff`).
-/
import SysInC.PythontExpr

set_option autoImplicit false

namespace SysInC.Pythont

open NullM

/-! ## Tokens in front of the parser -/

/-- The same state but for the nodes that were taken. -/
def SamePlace (p q : ast_parser_t) : Prop :=
  p.lexer = q.lexer ∧ p.current = q.current ∧ p.error = q.error

/-- The tokens between two states. -/
def Between : ast_parser_t → List lexeme_t → ast_parser_t → Prop
  | p, [], q => SamePlace p q
  | p, l :: ls, q => p.current.lexeme = l ∧ Between p.advance ls q

variable {p p' q r s : ast_parser_t} {l : lexeme_t} {ls ls' : List lexeme_t}

theorem SamePlace.symm (h : SamePlace p q) : SamePlace q p := ⟨h.1.symm, h.2.1.symm, h.2.2.symm⟩

theorem SamePlace.trans (h : SamePlace p q) (h' : SamePlace q r) : SamePlace p r :=
  ⟨h.1.trans h'.1, h.2.1.trans h'.2.1, h.2.2.trans h'.2.2⟩

theorem SamePlace.advance (h : SamePlace p q) : SamePlace p.advance q.advance := by
  obtain ⟨hlexer, -, herror⟩ := h
  simp [SamePlace, ast_parser_t.advance, hlexer, herror]

theorem SamePlace.between (h : SamePlace p p') : Between p ls q ↔ Between p' ls q := by
  induction ls generalizing p p' with
  | nil => exact ⟨h.symm.trans, h.trans⟩
  | cons l ls ih => rw [Between, Between, h.2.1, ih h.advance]

theorem between_append :
    Between p (ls ++ ls') q ↔ ∃ r, Between p ls r ∧ Between r ls' q := by
  induction ls generalizing p with
  | nil =>
      refine ⟨fun h => ⟨p, ⟨rfl, rfl, rfl⟩, h⟩, ?_⟩
      rintro ⟨r, hsame, h⟩
      exact (SamePlace.between hsame).mpr h
  | cons l ls ih =>
      rw [List.cons_append, Between, ih]
      exact ⟨fun ⟨hl, r, h, h'⟩ => ⟨r, ⟨hl, h⟩, h'⟩, fun ⟨r, ⟨hl, h⟩, h'⟩ => ⟨hl, r, h, h'⟩⟩

/-- An error that the tokenizer reports stays. -/
theorem Between.clean (h : Between p ls q) (hq : q.error = false) : p.error = false := by
  induction ls generalizing p with
  | nil => exact h.2.2.trans hq
  | cons l ls ih => exact (Bool.or_eq_false_iff.mp (ih h.2)).1

theorem Between.head (h : Between p (l :: ls) q) : p.current.lexeme = l := h.1

theorem is_delimiter_iff {d : String} :
    ast_is_delimiter p d = true ↔ p.current.lexeme = delimiter d := by
  simp [ast_is_delimiter, token_t.lexeme, delimiter]

theorem is_delimiter_ne {d : String} (h : p.current.lexeme = l) (hne : l ≠ delimiter d) :
    ast_is_delimiter p d = false := by
  rw [Bool.eq_false_iff, Ne, is_delimiter_iff, h]
  exact hne

/-! ## The primitives -/

variable {max_nodes : Option ℕ} {α β : Type} {R : α → ast_parser_t → Prop} {fails : Prop}

theorem next_returns : Returns fails ast_next p fun _ s => s = p.advance := by
  intro r s heval
  cases heval
  rfl

theorem new_returns (hpool : max_nodes ≠ none → fails) :
    Returns fails (ast_new max_nodes) p fun _ s => SamePlace s p := by
  refine Returns.get ?_
  split
  · next full =>
    refine Returns.null (hpool ?_)
    rintro rfl
    exact absurd full (by simp [pool_full])
  · intro r s heval
    cases heval
    exact ⟨rfl, rfl, rfl⟩

theorem fail_returns (h : fails) : Returns fails (ast_fail : parser α) p R :=
  Returns.modify (Returns.null h)

theorem expect_returns (d : String) (h : p.current.lexeme = delimiter d ∨ fails) :
    Returns fails (ast_expect d) p
      fun _ s => p.current.lexeme = delimiter d ∧ s = p.advance := by
  refine Returns.get ?_
  split
  · next here => exact next_returns.mono fun _ s hs => ⟨is_delimiter_iff.mp here, hs⟩
  · next other =>
    refine fail_returns (h.resolve_left fun here => other ?_)
    exact is_delimiter_iff.mpr here

/-! ## Precedences -/

def py_operator.prec : py_operator → ℤ
  | .or => 1
  | .and => 2
  | .add | .sub => 4
  | .mul | .div | .floordiv | .mod => 5
  | .pow => 6

theorem precedence_lexeme {t t' : token_t} (h : t.lexeme = t'.lexeme) :
    ast_precedence t = ast_precedence t' := by
  have htype : t.type = t'.type := congrArg Prod.fst h
  have htext : t.text = t'.text := congrArg Prod.snd h
  simp only [ast_precedence, htype, htext]

/-- A token with this lexeme. -/
def lexeme_t.token (l : lexeme_t) : token_t := ⟨l.1, l.2, 0, 0⟩

def lexeme_t.prec (l : lexeme_t) : ℤ := ast_precedence (lexeme_t.token l)

theorem precedence_of {t : token_t} (h : t.lexeme = l) : ast_precedence t = lexeme_t.prec l :=
  precedence_lexeme h

theorem operator_prec (op : py_operator) : lexeme_t.prec op.lexeme = op.prec := by
  cases op <;> decide

theorem comparison_prec (op : py_comparison) :
    lexeme_t.prec op.lexemes.1 = if op = .notin then -1 else 3 := by
  cases op <;> decide

theorem delimiter_prec (d : String) : lexeme_t.prec (delimiter d) = -1 := rfl

/-- The loosest operator of an expression of a level. -/
def level_prec : ℕ → ℤ
  | 0 => 1
  | 1 => 2
  | 2 | 3 => 3
  | 4 => 4
  | 5 => 5
  | 6 | 7 => 6
  | _ => 7

/-- What may follow an expression of a level without being a part of it. -/
def level_follow : ℕ → ℤ
  | 0 => 1
  | 1 | 2 => 2
  | 3 => 3
  | 4 => 4
  | 5 | 6 | 7 => 5
  | _ => 6

theorem level_prec_succ (n : ℕ) : level_prec n ≤ level_prec (n + 1) := by
  match n with
  | 0 | 1 | 2 | 3 | 4 | 5 | 6 | 7 => decide
  | n + 8 => exact Int.le_refl _

theorem level_prec_mono {m n : ℕ} (h : m ≤ n) : level_prec m ≤ level_prec n := by
  induction h with
  | refl => exact Int.le_refl _
  | step _ ih => exact Int.le_trans ih (level_prec_succ _)

theorem level_follow_succ (n : ℕ) : level_follow n ≤ level_follow (n + 1) := by
  match n with
  | 0 | 1 | 2 | 3 | 4 | 5 | 6 | 7 => decide
  | n + 8 => exact Int.le_refl _

theorem level_follow_mono {m n : ℕ} (h : m ≤ n) : level_follow m ≤ level_follow n := by
  induction h with
  | refl => exact Int.le_refl _
  | step _ ih => exact Int.le_trans ih (level_follow_succ _)

/-- The loosest operator that the code sees, signs aside. -/
def py_expr.low : py_expr → ℤ
  | .unary _ e => e.low
  | .binary op _ _ => op.prec
  | .compare _ _ _ => 3
  | _ => 7

theorem low_nonneg : (e : py_expr) → 0 ≤ e.low
  | .unary _ e => by
    rw [py_expr.low]
    exact low_nonneg e
  | .binary op _ _ => by
    rw [py_expr.low]
    cases op <;> decide
  | .compare _ _ _ => by
    rw [py_expr.low]
    decide
  | .number _ _ | .string _ _ | .name _ | .constant _ | .paren _ | .call _ _ _ | .index _ _ => by
    simp [py_expr.low]

theorem level_prec_le_low : (e : py_expr) → e.Grammatical → level_prec e.level ≤ e.low
  | .unary op e, h => by
    rw [py_expr.Grammatical] at h
    exact (level_prec_mono h.1).trans (level_prec_le_low e h.2)
  | .binary op _ _, _ => by
    rw [py_expr.low, py_expr.level]
    cases op <;> decide
  | .compare _ _ _, _ => by
    rw [py_expr.low, py_expr.level]
    decide
  | .number _ _, _ | .string _ _, _ | .name _, _ | .constant _, _ | .paren _, _
  | .call _ _ _, _ | .index _ _, _ => by
    simp [py_expr.low, py_expr.level, level_prec]

/-! ## Runs -/

/-- A token that is read on from as a suffix. -/
def opens_suffix (t : token_t) : Prop :=
  t.lexeme = delimiter "(" ∨ t.lexeme = delimiter "[" ∨ t.lexeme = delimiter "."

instance (t : token_t) : Decidable (opens_suffix t) := inferInstanceAs (Decidable (_ ∨ _ ∨ _))

/-- In front of a `not`, or of a string: neither an operator nor a suffix. -/
def Halted (s : ast_parser_t) : Prop :=
  s.error = false ∧ (s.current.lexeme = py_sign.not.lexeme ∨ s.current.type = .TOK_STRING)

/-- A run with the outcome `r`: it goes on with `g` at `q`, or it stops before, or it has no
value. But for that, NULL comes of a full pool only. -/
def Leads (max_nodes : Option ℕ) (f : parser ast_expr) (p q : ast_parser_t)
    (g : ℕ → ℕ → ast_expr → parser ast_expr) : Option (ast_expr × Bool) → Prop
  | some (t, false) => ∀ (fails : Prop) R, (max_nodes ≠ none → fails) →
    (∀ n n' s, SamePlace s q → Returns fails (g n n' t) s R) → Returns fails f p R
  | some (t, true) => Returns (max_nodes ≠ none) f p fun a s => a = t ∧ Halted s
  | none => Returns True f p fun _ _ => False

/-- The loop over the operators. -/
def climb (max_nodes : Option ℕ) (m : ℤ) (n n' : ℕ) : ast_expr → parser ast_expr :=
  ast_parse_operators max_nodes (ast_parse_expression max_nodes n) m n'

/-- The loop over the suffixes. -/
def suffix (max_nodes : Option ℕ) (n n' : ℕ) : ast_expr → parser ast_expr :=
  ast_parse_suffixes max_nodes (ast_parse_expression max_nodes n) n'

/-- An operand with what is behind it. -/
def operand (max_nodes : Option ℕ) (n n' : ℕ) : parser ast_expr :=
  ast_parse_postfix max_nodes (ast_parse_expression max_nodes n) n'

variable {t : ast_expr} {m k : ℤ} {n n' : ℕ} {f : parser ast_expr}
  {g : ℕ → ℕ → ast_expr → parser ast_expr}

/-- The loop over the operators ends in front of a token that binds looser. -/
theorem climb_ends (h : ast_precedence p.current < m) (R : ast_expr → ast_parser_t → Prop)
    (hr : R t p) : Returns fails (climb max_nodes m n n' t) p R := by
  cases n' with
  | zero => exact Returns.diverge
  | succ n' =>
      rw [climb, ast_parse_operators]
      refine Returns.get ?_
      split
      · exact Returns.pure hr
      · exact Returns.pure hr

theorem Halted.precedence (h : Halted p) : ast_precedence p.current = -1 := by
  rcases h.2 with hnot | hstring
  · rw [precedence_of hnot]
    rfl
  · simp [ast_precedence, hstring]

theorem Halted.not_delimiter (h : Halted p) (d : String) : ast_is_delimiter p d = false := by
  have htype : p.current.type ≠ .TOK_DELIMITER := by
    rcases h.2 with hnot | hstring
    · have : p.current.type = .TOK_KEYWORD := congrArg Prod.fst hnot
      simp [this]
    · simp [hstring]
  simp [ast_is_delimiter, htype]

theorem Halted.climb (h : Halted p) (hm : 0 ≤ m) :
    Returns fails (climb max_nodes m n n' t) p fun a s => a = t ∧ Halted s :=
  climb_ends (by rw [h.precedence]; omega) _ ⟨rfl, h⟩

/-- The loop over the suffixes ends in front of everything else. -/
theorem suffix_ends (h : ¬opens_suffix p.current) (R : ast_expr → ast_parser_t → Prop)
    (hr : R t p) : Returns fails (suffix max_nodes n n' t) p R := by
  rw [opens_suffix, ← is_delimiter_iff, ← is_delimiter_iff, ← is_delimiter_iff, not_or, not_or] at h
  cases n' with
  | zero => exact Returns.diverge
  | succ n' =>
      rw [suffix, ast_parse_suffixes]
      refine Returns.get ?_
      rw [if_neg h.1, if_neg h.2.1, if_neg h.2.2]
      split <;> exact Returns.pure hr

theorem Halted.no_suffix (h : Halted p) : ¬opens_suffix p.current := by
  rw [opens_suffix, ← is_delimiter_iff, ← is_delimiter_iff, ← is_delimiter_iff]
  simp [h.not_delimiter]

theorem SamePlace.halted (h : SamePlace s p) (hp : Halted p) : Halted s := by
  rw [Halted, h.2.1, h.2.2]
  exact hp

/-- An operator and what is read behind it. -/
theorem climb_step {text : String} {rb : Option (ast_expr × Bool)}
    (hs : Between s [l] r) (herror : r.error = false) (hprec : lexeme_t.prec l = k) (hm : m ≤ k)
    (hm0 : 0 ≤ m) (htext : l.2 = text)
    (hq : ast_precedence q.current < k + if text = "**" then 0 else 1)
    (hb : ∀ n r', SamePlace r' r → Leads max_nodes (ast_parse_expression max_nodes n
      (k + if text = "**" then 0 else 1)) r' q
      (climb max_nodes (k + if text = "**" then 0 else 1)) rb) :
    Leads max_nodes (climb max_nodes m n n' t) s q (climb max_nodes m)
      (rb.map fun (b, stopped) => (.binary text t b, stopped)) := by
  have hclean : s.error = false := hs.clean herror
  have htext' : s.current.text = text := (congrArg Prod.snd hs.head).trans htext
  have hprec' : ast_precedence s.current = k := (precedence_of hs.head).trans hprec
  -- what the loop does here, whatever is wanted of it
  have hstep : ∀ (fails : Prop) (R : ast_expr → ast_parser_t → Prop),
      (∀ n'' s', SamePlace s' r → Returns fails (ast_parse_expression max_nodes n
          (k + if text = "**" then 0 else 1) >>= fun right => ast_new max_nodes >>= fun _ =>
            climb max_nodes m n n'' (.binary text t right)) s' R) →
      Returns fails (climb max_nodes m n n' t) s R := by
    intro fails R h
    cases n' with
    | zero => exact Returns.diverge
    | succ n' =>
        rw [climb, ast_parse_operators]
        refine Returns.get ?_
        rw [if_neg (by simp [hclean]), if_neg (by rw [hprec']; omega), hprec', htext']
        refine next_returns.bind fun _ s' hs' => ?_
        rw [hs']
        exact h n' _ (hs.2)
  match rb, hb with
  | some (b, false), hb =>
    intro fails R hpool hR
    refine hstep fails R fun n'' s' hs' => ?_
    refine Returns.bind (Q := fun a s => a = b ∧ SamePlace s q) ?_ ?_
    · refine hb n s' hs' fails _ hpool fun n1 n2 s2 hs2 => climb_ends ?_ _ ⟨rfl, hs2⟩
      rw [hs2.2.1]
      exact hq
    · rintro a s2 ⟨rfl, hs2⟩
      exact (new_returns hpool).bind fun _ s3 hs3 => hR n n'' s3 (hs3.trans hs2)
  | some (b, true), hb =>
    refine hstep _ _ fun n'' s' hs' => ?_
    refine (hb n s' hs').bind ?_
    rintro a s2 ⟨rfl, hs2⟩
    exact (new_returns id).bind fun _ s3 hs3 => (hs3.halted hs2).climb hm0
  | none, hb =>
    refine hstep _ _ fun n'' s' hs' => ?_
    exact (hb n s' hs').bind fun _ _ h => h.elim

/-- A left operand, and the operator with its right one. -/
theorem Leads.operation {text : String} {ra rb : Option (ast_expr × Bool)}
    (ha : Leads max_nodes f p r (climb max_nodes m) ra)
    (hb : ∀ n n' t s, SamePlace s r →
      Leads max_nodes (climb max_nodes m n n' t) s q (climb max_nodes m)
      (rb.map fun (b, stopped) => (.binary text t b, stopped))) :
    Leads max_nodes f p q (climb max_nodes m) (built_binary text ra rb) := by
  match ra, ha with
  | none, ha => exact ha
  | some (a, true), ha => exact ha
  | some (a, false), ha =>
    match rb, hb with
    | none, hb => exact ha True _ (fun _ => trivial) fun n n' s hs => hb n n' a s hs
    | some (b, true), hb => exact ha _ _ id fun n n' s hs => hb n n' a s hs
    | some (b, false), hb =>
      exact fun fails R hpool hR =>
        ha fails R hpool fun n n' s hs => hb n n' a s hs fails R hpool hR

/-! ## Primaries -/

/-- An expression begins with no delimiter but a parenthesis. -/
theorem spell_head (e : py_expr) :
    ∃ l ls, e.spell = l :: ls ∧ (l.1 ≠ .TOK_DELIMITER ∨ l = delimiter "(") := by
  cases e with
  | number is_float text =>
      exact ⟨_, _, by rw [py_expr.spell], Or.inl (by cases is_float <;> simp)⟩
  | string text more => exact ⟨_, _, by rw [py_expr.spell], Or.inl (by simp)⟩
  | name text => exact ⟨_, _, by rw [py_expr.spell], Or.inl (by simp)⟩
  | constant c => exact ⟨_, _, by rw [py_expr.spell], Or.inl (by simp)⟩
  | paren e => exact ⟨_, _, by rw [py_expr.spell], Or.inr rfl⟩
  | call f args comma =>
      obtain ⟨l, ls, hspell, hl⟩ := spell_head f
      exact ⟨l, _, by rw [py_expr.spell, hspell, List.cons_append], hl⟩
  | index e i =>
      obtain ⟨l, ls, hspell, hl⟩ := spell_head e
      exact ⟨l, _, by rw [py_expr.spell, hspell, List.cons_append], hl⟩
  | unary op e =>
      exact ⟨_, _, by rw [py_expr.spell], Or.inl (by cases op <;> simp [py_sign.lexeme])⟩
  | binary op a b =>
      obtain ⟨l, ls, hspell, hl⟩ := spell_head a
      exact ⟨l, _, by rw [py_expr.spell, hspell, List.cons_append], hl⟩
  | compare a op b =>
      obtain ⟨l, ls, hspell, hl⟩ := spell_head a
      exact ⟨l, _, by rw [py_expr.spell, hspell, List.cons_append], hl⟩

/-- In front of an expression stands no delimiter that ends one. -/
theorem not_delimiter_of_expr {e : py_expr} (h : Between p (e.spell ++ ls) q) {d : String}
    (hd : d ≠ "(") : ast_is_delimiter p d = false := by
  obtain ⟨l, ls', hspell, hl⟩ := spell_head e
  rw [hspell, List.cons_append] at h
  refine is_delimiter_ne h.head ?_
  rcases hl with htype | rfl
  · rintro rfl
    exact htype rfl
  · simpa [delimiter] using hd.symm

/-- The run over the tokens of an expression, with signs in front of it. -/
def Runs (max_nodes : Option ℕ) (signs : List py_sign) (e : py_expr) : Prop :=
  ∀ m n p q, 0 ≤ m → m ≤ e.low → Between p (signs.map py_sign.lexeme ++ e.spell) q →
    q.error = false → ast_precedence q.current ≤ level_follow e.level →
    ¬opens_suffix q.current →
    Leads max_nodes (ast_parse_expression max_nodes n m) p q (climb max_nodes m) (built signs e)

/-- The run over a primary, up to the loop over the suffixes. -/
def RunsPrimary (max_nodes : Option ℕ) (e : py_expr) : Prop :=
  ∀ n n' p q, Between p e.spell q → q.error = false →
    Leads max_nodes (operand max_nodes n n') p q (suffix max_nodes) (built [] e)

/-- Inside of brackets the expression is read to its end. -/
theorem Runs.whole {e : py_expr} (h : Runs max_nodes [] e) {d : String} {n : ℕ}
    (hd : d ≠ "(" ∧ d ≠ "[" ∧ d ≠ ".") (hp : Between p (e.spell ++ delimiter d :: ls) q)
    (hq : q.error = false) (hpool : max_nodes ≠ none → fails)
    (hbad : built_whole (built [] e) = none → fails) :
    Returns fails (ast_parse_expression max_nodes n 0) p fun a s =>
      (built_whole (built [] e) = some a ∧ Between s (delimiter d :: ls) q)
        ∨ built_whole (built [] e) = none ∧ Halted s := by
  obtain ⟨r, hr, hrest⟩ := between_append.mp hp
  have hcurrent := hrest.head
  have hprec : ast_precedence r.current = -1 := (precedence_of hcurrent).trans (delimiter_prec d)
  have hclosed : ¬opens_suffix r.current := by
    rw [opens_suffix, hcurrent]
    simp [delimiter, hd]
  have hlow : 0 ≤ e.low ∧ ast_precedence r.current ≤ level_follow e.level := by
    have hfollow := level_follow_mono (Nat.zero_le e.level)
    refine ⟨low_nonneg e, ?_⟩
    rw [hprec]
    exact le_trans (by decide) hfollow
  have hrun := h 0 n p r le_rfl hlow.1 hr (hrest.clean hq) hlow.2 hclosed
  match hbuilt : built [] e, hrun with
  | none, hrun =>
    rw [hbuilt] at hbad
    exact (hrun.mono fun _ _ h => h.elim).weaken fun _ => hbad rfl
  | some (t, true), hrun => exact (hrun.mono fun _ _ h => Or.inr ⟨rfl, h.2⟩).weaken hpool
  | some (t, false), hrun =>
    refine hrun fails _ hpool fun n1 n2 s hs => climb_ends ?_ _ (Or.inl ⟨rfl, ?_⟩)
    · rw [hs.2.1, hprec]
      decide
    · exact (SamePlace.between hs).mpr hrest

/-- Signs in front of a primary are put in front of what is built of it. -/
theorem built_signs {e : py_expr} (h : e.level = 8) (signs : List py_sign) :
    built signs e = (built [] e).map fun (t, stopped) => (wrap signs t, stopped) := by
  cases e with
  | number | string | name | constant => rfl
  | paren e =>
      rw [built, built, Option.map_map]
      rfl
  | call f args comma =>
      rw [built, built, Option.map_bind]
      congr 1
      funext r
      obtain ⟨t, stopped⟩ := r
      cases stopped with
      | true => rfl
      | false =>
          by_cases hmany : AST_MAX_ARGS < args.length
          · simp [hmany]
          · simp [hmany, Function.comp_def, wrap]
  | index e i =>
      rw [built, built, Option.map_bind]
      congr 1
      funext r
      obtain ⟨t, stopped⟩ := r
      cases stopped with
      | true => rfl
      | false => simp [Function.comp_def, wrap]
  | unary op e => cases op <;> simp [py_expr.level, py_sign.level] at h
  | binary op a b => cases op <;> simp [py_expr.level, py_operator.level] at h
  | compare a op b => simp [py_expr.level] at h

/-- A sign is taken with an operand that begins behind it. -/
theorem primary_sign {op : py_sign} {expression : ℤ → parser ast_expr}
    (h : p.current.lexeme = op.lexeme) {R : ast_expr → ast_parser_t → Prop}
    (hr : Returns fails (expression 7 >>= fun operand => ast_new max_nodes >>= fun _ =>
      pure (.unary op.lexeme.2 operand)) p.advance R) :
    Returns fails (ast_parse_primary max_nodes expression n) p R := by
  have htype : p.current.type = op.lexeme.1 := congrArg Prod.fst h
  have htext : p.current.text = op.lexeme.2 := congrArg Prod.snd h
  rw [ast_parse_primary]
  refine Returns.get ?_
  have hsign : ast_is_sign p.current = true := by
    rw [ast_is_sign, htype, htext]
    cases op <;> decide
  have hname : ast_is_name p.current = false := by
    rw [ast_is_name, htype, htext]
    cases op <;> decide
  have hdelim : ∀ d, ast_is_delimiter p d = false := by
    intro d
    rw [ast_is_delimiter, htype]
    cases op <;> simp [py_sign.lexeme]
  have hother : ¬(p.current.type = .TOK_INTEGER ∨ p.current.type = .TOK_FLOAT)
      ∧ p.current.type ≠ .TOK_STRING := by
    rw [htype]
    cases op <;> decide
  dsimp only
  rw [if_neg hother.1, if_neg hother.2, hname, if_neg (by decide), hdelim, if_neg (by decide),
    hdelim, if_neg (by decide), hdelim, if_neg (by decide), hsign, if_pos rfl, htext]
  exact next_returns.bind fun _ s hs => hs ▸ hr

theorem low_primary {e : py_expr} (h : e.level = 8) : e.low = 7 := by
  cases e with
  | unary op e => cases op <;> simp [py_expr.level, py_sign.level] at h
  | binary op a b => cases op <;> simp [py_expr.level, py_operator.level] at h
  | compare a op b => simp [py_expr.level] at h
  | number | string | name | constant | paren | call | index => simp [py_expr.low]

/-- Signs in front of a primary. -/
theorem RunsPrimary.runs {e : py_expr} (h : RunsPrimary max_nodes e) (hlevel : e.level = 8)
    (signs : List py_sign) : Runs max_nodes signs e := by
  have hlow := low_primary hlevel
  induction signs with
  | nil =>
      intro m n p q hm0 _ hp hq _ hclosed
      cases n with
      | zero =>
          rw [ast_parse_expression]
          match built [] e with
          | none => exact Returns.diverge
          | some (t, true) => exact Returns.diverge
          | some (t, false) => exact fun _ _ _ _ => Returns.diverge
      | succ n =>
          have hrun := h n (n + 1) p q hp hq
          rw [ast_parse_expression]
          match built [] e, hrun with
          | none, hrun => exact hrun.bind fun _ _ h => h.elim
          | some (t, true), hrun =>
            refine hrun.bind ?_
            rintro a s ⟨rfl, hs⟩
            exact hs.climb hm0
          | some (t, false), hrun =>
            intro fails R hpool hR
            refine Returns.bind (Q := fun a s => a = t ∧ SamePlace s q) ?_ ?_
            · refine hrun fails _ hpool fun n1 n2 s hs => suffix_ends ?_ _ ⟨rfl, hs⟩
              rw [hs.2.1]
              exact hclosed
            · rintro a s ⟨rfl, hs⟩
              exact hR n (n + 1) s hs
  | cons op signs ih =>
      intro m n p q hm0 _ hp hq hfollow hclosed
      cases n with
      | zero =>
          rw [ast_parse_expression]
          match built (op :: signs) e with
          | none => exact Returns.diverge
          | some (t, true) => exact Returns.diverge
          | some (t, false) => exact fun _ _ _ _ => Returns.diverge
      | succ n =>
          have hrun := ih 7 n p.advance q (by decide) hlow.ge hp.2 hq hfollow hclosed
          have hq7 : ast_precedence q.current < 7 := by
            rw [hlevel] at hfollow
            exact hfollow.trans_lt (by decide)
          rw [ast_parse_expression]
          rw [built_signs hlevel] at hrun ⊢
          match built [] e, hrun with
          | none, hrun =>
            refine Returns.bind (Q := fun _ _ => False) ?_ fun _ _ h => h.elim
            refine Returns.bind (Q := fun _ _ => False) ?_ fun _ _ h => h.elim
            exact primary_sign hp.1 (hrun.bind fun _ _ h => h.elim)
          | some (t, true), hrun =>
            refine Returns.bind (Q := fun a s => a = wrap (op :: signs) t ∧ Halted s) ?_ ?_
            · refine Returns.bind (Q := fun a s => a = wrap (op :: signs) t ∧ Halted s) ?_ ?_
              · refine primary_sign hp.1 (hrun.bind ?_)
                rintro a s ⟨rfl, hs⟩
                exact (new_returns id).bind fun _ s' hs' => Returns.pure ⟨rfl, hs'.halted hs⟩
              · rintro a s ⟨rfl, hs⟩
                exact suffix_ends hs.no_suffix _ ⟨rfl, hs⟩
            · rintro a s ⟨rfl, hs⟩
              exact hs.climb hm0
          | some (t, false), hrun =>
            intro fails R hpool hR
            refine Returns.bind (Q := fun a s => a = wrap (op :: signs) t ∧ SamePlace s q) ?_ ?_
            · refine Returns.bind (Q := fun a s => a = wrap (op :: signs) t ∧ SamePlace s q) ?_ ?_
              · refine primary_sign hp.1 (Returns.bind
                  (Q := fun a s => a = wrap signs t ∧ SamePlace s q) ?_ ?_)
                · refine hrun fails _ hpool fun n1 n2 s hs => climb_ends ?_ _ ⟨rfl, hs⟩
                  rw [hs.2.1]
                  exact hq7
                · rintro a s ⟨rfl, hs⟩
                  exact (new_returns hpool).bind fun _ s' hs' =>
                    Returns.pure ⟨rfl, hs'.trans hs⟩
              · rintro a s ⟨rfl, hs⟩
                refine suffix_ends ?_ _ ⟨rfl, hs⟩
                rw [hs.2.1]
                exact hclosed
            · rintro a s ⟨rfl, hs⟩
              exact hR n (n + 1) s hs

/-! ### Atoms -/

/-- A token that is an expression of its own. -/
def atom_expr : lexeme_t → Option ast_expr
  | (.TOK_INTEGER, text) | (.TOK_FLOAT, text) => some (.number text)
  | (.TOK_STRING, text) => some (.string text)
  | (.TOK_IDENTIFIER, text) => some (.identifier text)
  | (.TOK_KEYWORD, text) =>
    if text ∈ ["True", "False", "None"] then some (.identifier text) else none
  | _ => none

theorem primary_atom {expression : ℤ → parser ast_expr} (hpool : max_nodes ≠ none → fails)
    (h : atom_expr p.current.lexeme = some t) :
    Returns fails (ast_parse_primary max_nodes expression n) p
      fun a s => a = t ∧ SamePlace s p.advance := by
  have htake : ∀ e : ast_expr, Returns fails
      (ast_next >>= fun _ => ast_new max_nodes >>= fun _ => pure e) p
      fun a s => a = e ∧ SamePlace s p.advance := fun e =>
    next_returns.bind fun _ s hs => (new_returns hpool).bind fun _ s' hs' =>
      Returns.pure ⟨rfl, by rw [hs] at hs'; exact hs'⟩
  rw [ast_parse_primary]
  refine Returns.get ?_
  dsimp only
  rw [token_t.lexeme] at h
  match htype : p.current.type, h with
  | .TOK_INTEGER, h =>
    obtain rfl : ast_expr.number p.current.text = t := by simpa [atom_expr] using h
    rw [if_pos (Or.inl rfl)]
    exact htake _
  | .TOK_FLOAT, h =>
    obtain rfl : ast_expr.number p.current.text = t := by simpa [atom_expr] using h
    rw [if_pos (Or.inr rfl)]
    exact htake _
  | .TOK_STRING, h =>
    obtain rfl : ast_expr.string p.current.text = t := by simpa [atom_expr] using h
    rw [if_neg (by decide), if_pos rfl]
    exact htake _
  | .TOK_IDENTIFIER, h =>
    obtain rfl : ast_expr.identifier p.current.text = t := by simpa [atom_expr] using h
    have hname : ast_is_name p.current = true := by simp [ast_is_name, htype]
    rw [if_neg (by decide), if_neg (by decide), hname, if_pos rfl]
    exact htake _
  | .TOK_KEYWORD, h =>
    have hword : p.current.text ∈ ["True", "False", "None"] := by
      by_contra hno
      exact absurd h (by simp [atom_expr, hno])
    obtain rfl : ast_expr.identifier p.current.text = t := by
      rw [atom_expr, if_pos hword] at h
      exact Option.some.inj h
    have hname : ast_is_name p.current = true := by
      rw [ast_is_name]
      exact decide_eq_true (Or.inr ⟨htype, hword⟩)
    rw [if_neg (by decide), if_neg (by decide), hname, if_pos rfl]
    exact htake _

theorem RunsPrimary.atom {e : py_expr} {l : lexeme_t} (hspell : e.spell = [l])
    (hatom : atom_expr l = some t) (hbuilt : built [] e = some (t, false)) :
    RunsPrimary max_nodes e := by
  intro n n' p q hp hq
  rw [hbuilt]
  intro fails R hpool hR
  rw [hspell] at hp
  refine (primary_atom hpool (hp.head ▸ hatom)).bind ?_
  rintro a s ⟨rfl, hs⟩
  exact hR n n' s (hs.trans hp.2)

theorem RunsPrimary.string (text : String) (more : List String) :
    RunsPrimary max_nodes (.string text more) := by
  intro n n' p q hp hq
  rw [py_expr.spell] at hp
  have hatom : atom_expr p.current.lexeme = some (.string text) := by
    rw [hp.head]
    rfl
  cases more with
  | nil =>
      intro fails R hpool hR
      refine (primary_atom hpool hatom).bind ?_
      rintro a s ⟨rfl, hs⟩
      exact hR n n' s (hs.trans hp.2)
  | cons text' more =>
      -- the second string is left in front of the parser
      have hnext : Halted p.advance :=
        ⟨hp.2.clean hq, Or.inr (congrArg Prod.fst hp.2.head)⟩
      refine (primary_atom id hatom).bind ?_
      rintro a s ⟨rfl, hs⟩
      have hhalted := hs.halted hnext
      exact suffix_ends hhalted.no_suffix _ ⟨rfl, hhalted⟩

/-! ### Brackets -/

theorem RunsPrimary.paren {e : py_expr} (he : Runs max_nodes [] e) :
    RunsPrimary max_nodes (.paren e) := by
  intro n n' p q hp hq
  rw [py_expr.spell] at hp
  have hinner := hp.2
  -- the primary is what stands between the parentheses
  have hprimary : ∀ fails : Prop, (max_nodes ≠ none → fails) →
      (built_whole (built [] e) = none → fails) →
      Returns fails (ast_parse_primary max_nodes (ast_parse_expression max_nodes n) n') p
        fun a s => built_whole (built [] e) = some a ∧ SamePlace s q := by
    intro fails hpool hbad
    rw [ast_parse_primary]
    refine Returns.get ?_
    have htype : p.current.type = .TOK_DELIMITER := congrArg Prod.fst hp.head
    have hname : ast_is_name p.current = false := by simp [ast_is_name, htype]
    have hopen : ast_is_delimiter p "(" = true := is_delimiter_iff.mpr hp.head
    have hlist : ast_is_delimiter p "[" = false := is_delimiter_ne hp.head (by decide)
    have hdict : ast_is_delimiter p "\x7b" = false := is_delimiter_ne hp.head (by decide)
    dsimp only
    rw [if_neg (by simp [htype]), if_neg (by simp [htype]), hname, if_neg (by decide), hlist,
      if_neg (by decide), hdict, if_neg (by decide), hopen, if_pos rfl]
    refine next_returns.bind fun _ s hs => ?_
    rw [hs, ast_parse_parenthesis]
    refine Returns.get ?_
    rw [not_delimiter_of_expr hinner (by decide), if_neg (by decide)]
    refine (he.whole ⟨by decide, by decide, by decide⟩ hinner hq hpool hbad).bind fun a s hs => ?_
    refine Returns.get ?_
    rcases hs with ⟨hwhole, hclose⟩ | ⟨hnone, hhalted⟩
    · have hcomma : ast_is_delimiter s "," = false := is_delimiter_ne hclose.head (by decide)
      rw [hcomma, Bool.not_false, if_pos rfl]
      refine (expect_returns ")" (Or.inl hclose.head)).bind ?_
      rintro _ s' ⟨-, rfl⟩
      exact Returns.pure ⟨hwhole, hclose.2⟩
    · rw [hhalted.not_delimiter, Bool.not_false, if_pos rfl]
      refine (expect_returns ")" (Or.inr (hbad hnone))).bind ?_
      rintro _ s' ⟨hclose, -⟩
      exact absurd (is_delimiter_iff.mpr hclose) (by simp [hhalted.not_delimiter])
  rw [built]
  match hbuilt : built_whole (built [] e) with
  | none =>
    refine (hprimary True (fun _ => trivial) fun _ => trivial).bind ?_
    rintro a s ⟨hsome, -⟩
    exact absurd hsome (by simp [hbuilt])
  | some t =>
    intro fails R hpool hR
    refine (hprimary fails hpool fun hnone => absurd hnone (by simp [hbuilt])).bind ?_
    rintro a s ⟨hsome, hs⟩
    obtain rfl : t = a := by simpa [hbuilt] using hsome
    exact hR n n' s hs

/-- The tokens between the parentheses of a call, behind the first argument. -/
def args_rest (es : List py_expr) (comma : Bool) : List lexeme_t :=
  spell_more es ++ ((if comma then [delimiter ","] else []) ++ [delimiter ")"])

/-- The loop over the arguments, up to the closing parenthesis. -/
theorem items_run {e : py_expr} {es : List py_expr} {comma : Bool}
    (he : ∀ e' ∈ e :: es, Runs max_nodes [] e')
    (hp : Between p (e.spell ++ args_rest es comma) q) (hq : q.error = false)
    (items : List ast_expr) (hpool : max_nodes ≠ none → fails)
    (hbad : built_args (e :: es) = none → fails)
    (hmany : AST_MAX_ARGS < items.length + (e :: es).length → fails) :
    Returns fails (ast_parse_items (ast_parse_expression max_nodes n) ")" n' items) p fun a s =>
      (items.length + (e :: es).length ≤ AST_MAX_ARGS
        ∧ ∃ ts, built_args (e :: es) = some ts ∧ a = items ++ ts ∧ Between s [delimiter ")"] q)
        ∨ built_args (e :: es) = none ∧ Halted s := by
  -- an argument that has no value
  have hfirst : ∀ {e : py_expr} {es : List py_expr}, built_whole (built [] e) = none →
      built_args (e :: es) = none := fun hnone => by rw [built_args, hnone]; rfl
  induction es generalizing e p n' items with
  | nil =>
      cases n' with
      | zero => exact Returns.diverge
      | succ n' =>
          have hwhole := he e List.mem_cons_self
          rw [ast_parse_items]
          refine Returns.get ?_
          rw [if_neg (by simp [hp.clean hq])]
          split
          · next full =>
            refine fail_returns (hmany ?_)
            rw [List.length_singleton]
            omega
          · next hroom =>
            have hlen : items.length + [e].length ≤ AST_MAX_ARGS := by
              rw [List.length_singleton]
              omega
            have hone : ∀ {a}, built_whole (built [] e) = some a →
                ∃ ts, built_args [e] = some ts ∧ items ++ [a] = items ++ ts := fun hbuilt =>
              ⟨_, by rw [built_args, hbuilt]; rfl, rfl⟩
            cases comma with
            | true =>
                have hp' : Between p (e.spell ++ delimiter "," :: [delimiter ")"]) q := hp
                refine (hwhole.whole ⟨by decide, by decide, by decide⟩ hp' hq hpool
                  fun hnone => hbad (hfirst hnone)).bind fun a s hs => Returns.get ?_
                rcases hs with ⟨hbuilt, hs⟩ | ⟨hnone, hhalted⟩
                · rw [is_delimiter_iff.mpr hs.head, Bool.not_true, if_neg (by decide)]
                  refine next_returns.bind fun _ s' hs' => Returns.get ?_
                  rw [hs', is_delimiter_iff.mpr hs.2.head, if_pos rfl]
                  obtain ⟨ts, hts, heq⟩ := hone hbuilt
                  exact Returns.pure (Or.inl ⟨hlen, ts, hts, heq, hs.2⟩)
                · rw [hhalted.not_delimiter, Bool.not_false, if_pos rfl]
                  exact Returns.pure (Or.inr ⟨hfirst hnone, hhalted⟩)
            | false =>
                have hp' : Between p (e.spell ++ delimiter ")" :: []) q := hp
                refine (hwhole.whole ⟨by decide, by decide, by decide⟩ hp' hq hpool
                  fun hnone => hbad (hfirst hnone)).bind fun a s hs => Returns.get ?_
                rcases hs with ⟨hbuilt, hs⟩ | ⟨hnone, hhalted⟩
                · rw [is_delimiter_ne hs.head (by decide), Bool.not_false, if_pos rfl]
                  obtain ⟨ts, hts, heq⟩ := hone hbuilt
                  exact Returns.pure (Or.inl ⟨hlen, ts, hts, heq, hs⟩)
                · rw [hhalted.not_delimiter, Bool.not_false, if_pos rfl]
                  exact Returns.pure (Or.inr ⟨hfirst hnone, hhalted⟩)
  | cons e' es ih =>
      cases n' with
      | zero => exact Returns.diverge
      | succ n' =>
          have hmore : Between p
              (e.spell ++ delimiter "," :: (e'.spell ++ args_rest es comma)) q := by
            rw [args_rest, spell_more] at hp
            simpa [args_rest] using hp
          rw [ast_parse_items]
          refine Returns.get ?_
          rw [if_neg (by simp [hp.clean hq])]
          split
          · next full =>
            refine fail_returns (hmany ?_)
            rw [List.length_cons]
            omega
          · next hroom =>
            refine ((he e List.mem_cons_self).whole ⟨by decide, by decide, by decide⟩ hmore hq
              hpool fun hnone => hbad (hfirst hnone)).bind fun a s hs => ?_
            refine Returns.get ?_
            rcases hs with ⟨hwhole, hs⟩ | ⟨hnone, hhalted⟩
            · rw [is_delimiter_iff.mpr hs.head, Bool.not_true, if_neg (by decide)]
              refine next_returns.bind fun _ s' hs' => Returns.get ?_
              rw [hs', not_delimiter_of_expr hs.2 (by decide), if_neg (by decide)]
              have hrest : built_args (e' :: es) = none → built_args (e :: e' :: es) = none :=
                fun hnone => by rw [built_args, hwhole, Option.bind_some, hnone]; rfl
              refine (ih (fun e'' h => he e'' (List.mem_cons_of_mem _ h)) hs.2 _
                (fun hnone => hbad (hrest hnone)) (fun hlen => hmany ?_)).mono ?_
              · simp only [List.length_append, List.length_cons, List.length_nil] at hlen ⊢
                omega
              rintro a' s'' (⟨hle, ts, hts, rfl, hclose⟩ | ⟨hnone, hhalted⟩)
              · refine Or.inl ⟨?_, a :: ts, ?_, ?_, hclose⟩
                · simp only [List.length_append, List.length_cons, List.length_nil] at hle ⊢
                  omega
                · rw [built_args, hwhole, Option.bind_some, hts]
                  rfl
                · simp
              · exact Or.inr ⟨hrest hnone, hhalted⟩
            · rw [hhalted.not_delimiter, Bool.not_false, if_pos rfl]
              exact Returns.pure (Or.inr ⟨hfirst hnone, hhalted⟩)

/-- All that stands behind the opening parenthesis of a call. -/
theorem closed_run {args : List py_expr} {comma : Bool}
    (hargs : ∀ e ∈ args, Runs max_nodes [] e) (hcomma : comma = true → args ≠ [])
    (hp : Between p (spell_args args
      ++ ((if comma then [delimiter ","] else []) ++ [delimiter ")"])) q)
    (hq : q.error = false) (hpool : max_nodes ≠ none → fails)
    (hbad : built_args args = none → fails) (hmany : AST_MAX_ARGS < args.length → fails) :
    Returns fails (ast_parse_closed (ast_parse_expression max_nodes n) ")" n') p fun a s =>
      args.length ≤ AST_MAX_ARGS ∧ built_args args = some a ∧ SamePlace s q := by
  rw [ast_parse_closed]
  refine Returns.get ?_
  cases args with
  | nil =>
      have hnone : comma = false := by
        rw [← Bool.not_eq_true]
        exact fun h => hcomma h rfl
      rw [hnone] at hp
      rw [is_delimiter_iff.mpr hp.head, if_pos rfl]
      refine Returns.bind (Q := fun a s => a = [] ∧ s = p) (Returns.pure ⟨rfl, rfl⟩) ?_
      rintro a s ⟨rfl, rfl⟩
      refine (expect_returns ")" (Or.inl hp.head)).bind ?_
      rintro _ s' ⟨-, rfl⟩
      exact Returns.pure ⟨Nat.zero_le _, rfl, hp.2⟩
  | cons e es =>
      have hp' : Between p (e.spell ++ args_rest es comma) q := by
        rw [spell_args, List.append_assoc] at hp
        exact hp
      rw [not_delimiter_of_expr hp' (by decide), if_neg (by decide)]
      refine (items_run hargs hp' hq [] hpool hbad ?_).bind fun a s hs => ?_
      · rwa [List.length_nil, Nat.zero_add]
      rcases hs with ⟨hle, ts, hts, rfl, hclose⟩ | ⟨hnone, hhalted⟩
      · refine (expect_returns ")" (Or.inl hclose.head)).bind ?_
        rintro _ s' ⟨-, rfl⟩
        refine Returns.pure ⟨?_, hts, hclose.2⟩
        rwa [List.length_nil, Nat.zero_add] at hle
      · refine (expect_returns ")" (Or.inr (hbad hnone))).bind ?_
        rintro _ s' ⟨hclose, -⟩
        exact absurd (is_delimiter_iff.mpr hclose) (by simp [hhalted.not_delimiter])

/-- What the loop over the suffixes goes on with from a primary. -/
theorem RunsPrimary.extend {e e' : py_expr} (next : ast_expr → Option ast_expr)
    (he : RunsPrimary max_nodes e) (hspell : e'.spell = e.spell ++ ls)
    (hbuilt : built [] e' = (built [] e).bind fun (t, stopped) =>
      if stopped then some (t, true) else (next t).map fun t => (t, false))
    (hstep : ∀ n n' t s q (fails : Prop) R, Between s ls q → q.error = false →
      (max_nodes ≠ none → fails) → (next t = none → fails) →
      (∀ t' n' s', next t = some t' → SamePlace s' q →
        Returns fails (suffix max_nodes n n' t') s' R) →
      Returns fails (suffix max_nodes n n' t) s R) :
    RunsPrimary max_nodes e' := by
  intro n n' p q hp hq
  rw [hspell] at hp
  obtain ⟨r, hr, hrest⟩ := between_append.mp hp
  have hrun := he n n' p r hr (hrest.clean hq)
  rw [hbuilt]
  match built [] e, hrun with
  | none, hrun => exact hrun
  | some (t, true), hrun => exact hrun
  | some (t, false), hrun =>
    dsimp only [Option.bind_some]
    rw [if_neg (by decide)]
    match hnext : next t with
    | none =>
      refine hrun True _ (fun _ => trivial) fun n1 n2 s hs => hstep n1 n2 t s q _ _
        ((SamePlace.between hs).mpr hrest) hq (fun _ => trivial) (fun _ => trivial) ?_
      intro t' n3 s' hsome
      exact absurd hsome (by simp [hnext])
    | some t' =>
      intro fails R hpool hR
      refine hrun fails _ hpool fun n1 n2 s hs => hstep n1 n2 t s q fails _
        ((SamePlace.between hs).mpr hrest) hq hpool
        (fun hnone => absurd hnone (by simp [hnext])) ?_
      intro t'' n3 s' hsome hs'
      obtain rfl : t' = t'' := by simpa [hnext] using hsome
      exact hR n1 n3 s' hs'

theorem RunsPrimary.call {f : py_expr} {args : List py_expr} {comma : Bool}
    (hf : RunsPrimary max_nodes f) (hargs : ∀ e ∈ args, Runs max_nodes [] e)
    (hcomma : comma = true → args ≠ []) : RunsPrimary max_nodes (.call f args comma) := by
  refine RunsPrimary.extend (fun t => if AST_MAX_ARGS < args.length then none
    else (built_args args).map fun args => .call t args) hf (by rw [py_expr.spell]) ?_ ?_
  · rw [built]
    congr 1
    funext r
    obtain ⟨t, stopped⟩ := r
    cases stopped with
    | true => rfl
    | false =>
        by_cases hmany : AST_MAX_ARGS < args.length
        · simp [hmany]
        · simp [hmany, Function.comp_def, wrap]
  · intro n n' t s q fails R hs hq hpool hbad hnext
    cases n' with
    | zero => exact Returns.diverge
    | succ n' =>
        rw [suffix, ast_parse_suffixes]
        refine Returns.get ?_
        rw [if_neg (by simp [hs.clean hq]), is_delimiter_iff.mpr hs.head, if_pos rfl]
        refine (new_returns hpool).bind fun _ s1 hs1 => next_returns.bind fun _ s2 hs2 => ?_
        have hinner := (SamePlace.between hs1.advance).mpr hs.2
        rw [← hs2] at hinner
        refine (closed_run hargs hcomma hinner hq hpool
          (fun hnone => hbad ?_) fun hmany => hbad (if_pos hmany)).bind ?_
        · rw [hnone]
          exact ite_self none
        rintro a s3 ⟨hle, hbuilt, hs3⟩
        refine hnext _ n' s3 ?_ hs3
        rw [if_neg (by omega), hbuilt]
        rfl

theorem RunsPrimary.index {e i : py_expr} (he : RunsPrimary max_nodes e)
    (hi : Runs max_nodes [] i) : RunsPrimary max_nodes (.index e i) := by
  refine RunsPrimary.extend (fun t => (built_whole (built [] i)).map fun i => .index t i) he
    (by rw [py_expr.spell]) ?_ ?_
  · rw [built]
    congr 1
    funext r
    obtain ⟨t, stopped⟩ := r
    cases stopped with
    | true => rfl
    | false => simp [Function.comp_def, wrap]
  · intro n n' t s q fails R hs hq hpool hbad hnext
    cases n' with
    | zero => exact Returns.diverge
    | succ n' =>
        rw [suffix, ast_parse_suffixes]
        refine Returns.get ?_
        have hcall : ast_is_delimiter s "(" = false := is_delimiter_ne hs.head (by decide)
        rw [if_neg (by simp [hs.clean hq]), hcall, if_neg (by decide), is_delimiter_iff.mpr hs.head,
          if_pos rfl]
        refine next_returns.bind fun _ s1 hs1 => ?_
        have hinner := hs.2
        rw [← hs1] at hinner
        refine Returns.bind (Q := fun a s' => ∃ t', built_whole (built [] i) = some t'
          ∧ a = .index t t' ∧ SamePlace s' q) ?_ ?_
        · have hwhole : built_whole (built [] i) = none → fails := fun hnone =>
            hbad (by rw [hnone]; rfl)
          rw [ast_parse_subscript]
          have hbound : Returns fails (ast_parse_bound (ast_parse_expression max_nodes n) [":"]) s1
              fun a s' => ∃ t', a = some t' ∧ ((built_whole (built [] i) = some t'
                ∧ Between s' (delimiter "]" :: []) q)
                ∨ built_whole (built [] i) = none ∧ Halted s') := by
            rw [ast_parse_bound]
            refine Returns.get ?_
            have hcolon : ([":"].any (ast_is_delimiter s1)) = false := by
              rw [List.any_cons, not_delimiter_of_expr hinner (by decide)]
              rfl
            rw [hcolon, if_neg (by decide)]
            refine (hi.whole ⟨by decide, by decide, by decide⟩ hinner hq hpool hwhole).bind
              fun a s' hs' => ?_
            exact Returns.pure ⟨a, rfl, hs'⟩
          refine hbound.bind ?_
          rintro a s' ⟨t', rfl, hs'⟩
          refine Returns.get ?_
          rcases hs' with ⟨hbuilt, hclose⟩ | ⟨hnone, hhalted⟩
          · rw [is_delimiter_ne hclose.head (by decide), if_neg (by decide)]
            refine (expect_returns "]" (Or.inl hclose.head)).bind ?_
            rintro _ s2 ⟨-, rfl⟩
            exact (new_returns hpool).bind fun _ s3 hs3 =>
              Returns.pure ⟨t', hbuilt, rfl, hs3.trans hclose.2⟩
          · rw [hhalted.not_delimiter, if_neg (by decide)]
            refine (expect_returns "]" (Or.inr (hwhole hnone))).bind ?_
            rintro _ s2 ⟨hclose, -⟩
            exact absurd (is_delimiter_iff.mpr hclose) (by simp [hhalted.not_delimiter])
        · rintro a s' ⟨t', hbuilt, rfl, hs'⟩
          exact hnext _ n' s' (by rw [hbuilt]; rfl) hs'

/-! ### Operations -/

theorem Runs.unary {op : py_sign} {e : py_expr} {signs : List py_sign}
    (h : (py_expr.unary op e).Grammatical) (he : Runs max_nodes (signs ++ [op]) e) :
    Runs max_nodes signs (.unary op e) := by
  intro m n p q hm0 hm hp hq hfollow hclosed
  rw [py_expr.Grammatical] at h
  rw [py_expr.low] at hm
  rw [built]
  refine he m n p q hm0 hm ?_ hq ?_ hclosed
  · rw [List.map_append, List.append_assoc]
    rw [py_expr.spell] at hp
    exact hp
  · refine hfollow.trans ((level_follow_mono ?_).trans (level_follow_mono h.1))
    exact le_rfl

theorem Runs.binary {op : py_operator} {a b : py_expr} {signs : List py_sign}
    (h : (py_expr.binary op a b).Grammatical) (ha : Runs max_nodes signs a)
    (hb : Runs max_nodes [] b) : Runs max_nodes signs (.binary op a b) := by
  intro m n p q hm0 hm hp hq hfollow hclosed
  rw [py_expr.Grammatical] at h
  obtain ⟨hla, hlb, hga, hgb⟩ := h
  rw [py_expr.low] at hm
  rw [py_expr.level] at hfollow
  rw [py_expr.spell, ← List.append_assoc] at hp
  obtain ⟨r, hr, hrest⟩ := between_append.mp hp
  have hprec : ast_precedence r.current = op.prec :=
    (precedence_of hrest.head).trans (operator_prec op)
  have hlow_a := (level_prec_mono hla).trans (level_prec_le_low a hga)
  have hlow_b := (level_prec_mono hlb).trans (level_prec_le_low b hgb)
  have hfollow_a := level_follow_mono hla
  have hfollow_b := level_follow_mono hlb
  have hopen : ¬opens_suffix r.current := by
    rw [opens_suffix, hrest.head]
    cases op <;> decide
  -- the levels of the operands against the precedence of the operator
  have hlevels : op.prec ≤ level_prec op.operands.1 ∧ op.prec ≤ level_follow op.operands.1
      ∧ op.prec + (if op.lexeme.2 = "**" then 0 else 1) ≤ level_prec op.operands.2
      ∧ level_follow op.level ≤ level_follow op.operands.2
      ∧ level_follow op.level < op.prec + (if op.lexeme.2 = "**" then 0 else 1)
      ∧ 0 ≤ op.prec + (if op.lexeme.2 = "**" then 0 else 1) := by
    cases op <;> decide
  obtain ⟨hl1, hl2, hl3, hl4, hl5, hl6⟩ := hlevels
  rw [built]
  refine Leads.operation (ha m n p r hm0 (by omega) hr (hrest.clean hq) (by omega) hopen) ?_
  intro n1 n2 t s hs
  refine climb_step (r := r.advance) ⟨?_, hs.advance⟩ (hrest.2.clean hq) (operator_prec op) hm hm0
    rfl (by omega) ?_
  · rw [hs.2.1]
    exact hrest.head
  · intro n3 r' hr'
    refine hb _ n3 r' q hl6 (by omega) ?_ hq (by omega) hclosed
    exact (SamePlace.between hr').mpr hrest.2

theorem Runs.compare {op : py_comparison} {a b : py_expr} {signs : List py_sign}
    (h : (py_expr.compare a op b).Grammatical) (ha : Runs max_nodes signs a)
    (hb : Runs max_nodes (if op = .isnot then [.not] else []) b) :
    Runs max_nodes signs (.compare a op b) := by
  intro m n p q hm0 hm hp hq hfollow hclosed
  rw [py_expr.Grammatical] at h
  obtain ⟨hla, hlb, hga, hgb⟩ := h
  rw [py_expr.low] at hm
  rw [py_expr.level] at hfollow
  rw [py_expr.spell, ← List.append_assoc] at hp
  obtain ⟨r, hr, hrest⟩ := between_append.mp hp
  have hprec : ast_precedence r.current = if op = .notin then -1 else 3 :=
    (precedence_of hrest.head).trans (comparison_prec op)
  have hlow_a := (level_prec_mono hla).trans (level_prec_le_low a hga)
  have hlow_b := (level_prec_mono hlb).trans (level_prec_le_low b hgb)
  have hfollow_a := level_follow_mono hla
  have hfollow_b := level_follow_mono hlb
  have hopen : ¬opens_suffix r.current := by
    rw [opens_suffix, hrest.head]
    cases op <;> decide
  have hlevels : level_prec 3 = 3 ∧ level_follow 3 = 3 ∧ level_prec 4 = 4 ∧ level_follow 4 = 4 := by
    decide
  obtain ⟨hl1, hl2, hl3, hl4⟩ := hlevels
  have hrun := ha m n p r hm0 (by omega) hr (hrest.clean hq) (by rw [hprec]; split <;> omega) hopen
  rw [built]
  by_cases hnotin : op = .notin
  · -- the loop knows no operator `not`
    rw [if_pos hnotin]
    have hhalted : Halted r := by
      refine ⟨hrest.clean hq, Or.inl (hrest.head.trans ?_)⟩
      rw [hnotin]
      rfl
    cases hbuilt : built signs a with
    | none =>
        rw [hbuilt] at hrun
        exact hrun
    | some r =>
        obtain ⟨t, stopped⟩ := r
        rw [hbuilt] at hrun
        cases stopped with
        | true => exact hrun
        | false => exact hrun _ _ id fun n1 n2 s hs => (hs.halted hhalted).climb hm0
  · rw [if_neg hnotin]
    rw [if_neg hnotin] at hprec
    refine Leads.operation hrun fun n1 n2 t s hs => ?_
    have hstar : ¬op.lexemes.1.2 = "**" := by cases op <;> decide
    have hop : lexeme_t.prec op.lexemes.1 = 3 := by rw [comparison_prec, if_neg hnotin]
    refine climb_step (r := r.advance) ⟨?_, hs.advance⟩ (hrest.2.clean hq) hop hm hm0 rfl
      (by rw [if_neg hstar]; omega) ?_
    · rw [hs.2.1]
      exact hrest.head
    · rw [if_neg hstar]
      intro n3 r' hr'
      refine hb _ n3 r' q (by decide) (by omega) ((SamePlace.between hr').mpr ?_) hq (by omega)
        hclosed
      have hbehind := hrest.2
      cases op with
      | notin => exact absurd rfl hnotin
      | _ => exact hbehind

theorem RunsPrimary.both {e : py_expr} (h : RunsPrimary max_nodes e) (hlevel : e.level = 8) :
    (∀ signs, Runs max_nodes signs e) ∧ (e.level = 8 → RunsPrimary max_nodes e) :=
  ⟨h.runs hlevel, fun _ => h⟩

mutual

/-- The run over an expression, and the one over a primary. -/
theorem runs (max_nodes : Option ℕ) : (e : py_expr) → e.Grammatical →
    (∀ signs, Runs max_nodes signs e) ∧ (e.level = 8 → RunsPrimary max_nodes e)
  | .number is_float text, _ =>
    (RunsPrimary.atom (by rw [py_expr.spell]) (by cases is_float <;> rfl) rfl).both rfl
  | .string text more, _ => (RunsPrimary.string text more).both rfl
  | .name text, _ => (RunsPrimary.atom (by rw [py_expr.spell]) rfl rfl).both rfl
  | .constant c, _ =>
    (RunsPrimary.atom (by rw [py_expr.spell]) (by cases c <;> rfl) rfl).both rfl
  | .paren e, h => by
    rw [py_expr.Grammatical] at h
    exact (RunsPrimary.paren ((runs max_nodes e h).1 [])).both rfl
  | .call f args comma, h => by
    rw [py_expr.Grammatical] at h
    obtain ⟨hlevel, hf, hargs, hcomma⟩ := h
    exact (RunsPrimary.call ((runs max_nodes f hf).2 hlevel) (runs_all max_nodes args hargs)
      hcomma).both rfl
  | .index e i, h => by
    rw [py_expr.Grammatical] at h
    obtain ⟨hlevel, he, hi⟩ := h
    exact (RunsPrimary.index ((runs max_nodes e he).2 hlevel) ((runs max_nodes i hi).1 [])).both rfl
  | .unary op e, h => by
    have hop := h
    rw [py_expr.Grammatical] at h
    refine ⟨fun signs => Runs.unary hop ((runs max_nodes e h.2).1 _), fun hlevel => ?_⟩
    cases op <;> simp [py_expr.level, py_sign.level] at hlevel
  | .binary op a b, h => by
    have hop := h
    rw [py_expr.Grammatical] at h
    obtain ⟨-, -, ha, hb⟩ := h
    refine ⟨fun signs => Runs.binary hop ((runs max_nodes a ha).1 signs)
      ((runs max_nodes b hb).1 []), fun hlevel => ?_⟩
    cases op <;> simp [py_expr.level, py_operator.level] at hlevel
  | .compare a op b, h => by
    have hop := h
    rw [py_expr.Grammatical] at h
    obtain ⟨-, -, ha, hb⟩ := h
    refine ⟨fun signs => Runs.compare hop ((runs max_nodes a ha).1 signs)
      ((runs max_nodes b hb).1 _), fun hlevel => ?_⟩
    simp [py_expr.level] at hlevel

theorem runs_all (max_nodes : Option ℕ) : (args : List py_expr) → AllGrammatical args →
    ∀ e ∈ args, Runs max_nodes [] e
  | [], _ => fun _ h => absurd h List.not_mem_nil
  | e :: es, h => by
    rw [AllGrammatical] at h
    intro e' he'
    rcases List.mem_cons.mp he' with heq | hmem
    · rw [heq]
      exact (runs max_nodes e h.1).1 []
    · exact runs_all max_nodes es h.2 e' hmem

end

/-! ## The claim -/

/-- A token that ends an expression: no operator and no suffix. -/
def Ends_expression (t : token_t) : Prop := ast_precedence t < 0 ∧ ¬opens_suffix t

/-- What is left of the tokens of an expression. -/
theorem expression_run (max_nodes : Option ℕ) {e : py_expr} (he : e.Grammatical)
    (hp : Between p e.spell q) (hq : q.error = false) (hend : Ends_expression q.current) :
    Returns (max_nodes ≠ none ∨ built [] e = none) (ast_parse_expression max_nodes n 0) p
      fun t s => s.error = false ∧ ∃ stopped, built [] e = some (t, stopped) := by
  have hfollow : ast_precedence q.current ≤ level_follow e.level := by
    have hlevel := level_follow_mono (Nat.zero_le e.level)
    have hzero : level_follow 0 = 1 := rfl
    have hneg := hend.1
    omega
  have hrun := (runs max_nodes e he).1 [] 0 n p q le_rfl (low_nonneg e) hp hq hfollow hend.2
  match hbuilt : built [] e, hrun with
  | none, hrun => exact (hrun.mono fun _ _ h => h.elim).weaken fun _ => Or.inr rfl
  | some (t, true), hrun =>
    refine (hrun.mono ?_).weaken Or.inl
    rintro a s ⟨rfl, hs⟩
    exact ⟨hs.1, true, rfl⟩
  | some (t, false), hrun =>
    refine hrun _ _ Or.inl fun n1 n2 s hs => climb_ends ?_ _ ⟨hs.2.2.trans hq, false, rfl⟩
    rw [hs.2.1]
    exact hend.1

/-- With nodes enough the expression is read, where it is not refused. -/
theorem expression_accepted {e : py_expr} (he : e.Grammatical) (hp : Between p e.spell q)
    (hq : q.error = false) (hend : Ends_expression q.current) (hclear : ¬e.Refused)
    (hn : p.measure < n) :
    ∃ t s, eval (ast_parse_expression none n 0) p = some (some t, s) ∧ s.error = false
      ∧ s.ast_node_count = p.ast_node_count + e.read_nodes := by
  obtain ⟨r, s, heval, hparses⟩ := ast_parse_expression_spec none n p 0 le_rfl hn
  have hrun := expression_run none he hp hq hend r s heval
  cases r with
  | none => exact absurd (hrun.resolve_left fun h => h rfl) fun h => hclear (built_none_iff.mp h)
  | some t =>
      obtain ⟨herror, stopped, hbuilt⟩ := hrun
      refine ⟨t, s, heval, herror, ?_⟩
      rw [hparses.1.exact herror rfl, built_nodes hbuilt]

/-- `ast_parse_expression` reports an error, or it hands back the tree that is meant. -/
def Prescribed (max_nodes : Option ℕ) (p : ast_parser_t) (e : py_expr) : Prop :=
  ∀ n, p.measure < n → Ends (ast_parse_expression max_nodes n 0) p fun r s =>
    r = none ∨ s.error = true ∨ r = e.ast

/-- The nodes that are left in the pool do not suffice for what is read. -/
def Short (max_nodes : Option ℕ) (p : ast_parser_t) (e : py_expr) : Prop :=
  ∃ limit, max_nodes = some limit ∧ limit < p.ast_node_count + e.read_nodes

variable {e : py_expr}

theorem plain_of_prescribed (he : e.Grammatical) (hp : Between p e.spell q)
    (hq : q.error = false) (hend : Ends_expression q.current) (hclear : ¬e.Refused)
    (hshort : ¬Short max_nodes p e) (h : Prescribed max_nodes p e) : e.Plain := by
  obtain ⟨t, s, heval, herror, hcount⟩ :=
    expression_accepted he hp hq hend hclear (Nat.lt_succ_self p.measure)
  have hsame : eval (ast_parse_expression max_nodes (p.measure + 1) 0) p
      = some (some t, s) := by
    match max_nodes, hshort with
    | none, _ => exact heval
    | some limit, hshort =>
      -- the nodes that are taken are in the pool
      refine (ast_parse_expression_same _ 0 p _ s heval).2 ?_
      rw [hcount]
      exact Nat.le_of_not_lt fun hlt => hshort ⟨limit, rfl, hlt⟩
  obtain ⟨-, stopped, hbuilt⟩ := (expression_run _ he hp hq hend).value hsame
  obtain ⟨r, s', heval', hr⟩ := h (p.measure + 1) (Nat.lt_succ_self _)
  obtain ⟨rfl, rfl⟩ : r = some t ∧ s' = s := by simpa [hsame, eq_comm] using heval'
  rcases hr with hnone | herror' | hast
  · exact absurd hnone (by simp)
  · exact absurd (herror'.symm.trans herror) (by decide)
  · exact (built_iff hbuilt).mp hast.symm

theorem prescribed_of (he : e.Grammatical) (hp : Between p e.spell q) (hq : q.error = false)
    (hend : Ends_expression q.current)
    (hroom : ∀ limit, max_nodes = some limit → p.ast_node_count ≤ limit)
    (h : e.Plain ∨ e.Refused ∨ Short max_nodes p e) : Prescribed max_nodes p e := by
  intro n hn
  obtain ⟨r, s, heval, hparses⟩ := ast_parse_expression_spec max_nodes n p 0 le_rfl hn
  refine ⟨r, s, heval, ?_⟩
  cases r with
  | none => exact Or.inl rfl
  | some t =>
      obtain ⟨herror, stopped, hbuilt⟩ := (expression_run _ he hp hq hend).value heval
      rcases h with hplain | hrefused | ⟨limit, rfl, hlt⟩
      · exact Or.inr (Or.inr ((built_iff hbuilt).mpr hplain).symm)
      · rw [built_none_iff.mpr hrefused] at hbuilt
        exact absurd hbuilt (by simp)
      · have htaken := hparses.1.taken herror
        have hbound := hparses.1.bound limit rfl (hroom limit rfl)
        rw [built_nodes hbuilt] at htaken
        omega

/-- The parser in front of the first token of a source. -/
def parser_at (source : List Char) : ast_parser_t := (parser_init source).advance

/-- `a + b` -/
def name_sum : py_expr := .binary .add (.name "a") (.name "b")

theorem name_sum_between : Between (parser_at ['a', '+', 'b']) name_sum.spell
    (parser_at ['a', '+', 'b']).advance.advance.advance := by
  have hspell : name_sum.spell
      = [(.TOK_IDENTIFIER, "a"), (.TOK_OPERATOR, "+"), (.TOK_IDENTIFIER, "b")] := by
    simp [name_sum, py_expr.spell, py_operator.lexeme]
  rw [hspell]
  exact ⟨by decide, by decide, by decide, rfl, rfl, rfl⟩

/-- `-a ** b` -/
def minus_power : py_expr := .unary .minus (.binary .pow (.name "a") (.name "b"))

theorem minus_power_between : Between (parser_at ['-', 'a', '*', '*', 'b']) minus_power.spell
    (parser_at ['-', 'a', '*', '*', 'b']).advance.advance.advance.advance := by
  have hspell : minus_power.spell = [(.TOK_OPERATOR, "-"), (.TOK_IDENTIFIER, "a"),
      (.TOK_OPERATOR, "**"), (.TOK_IDENTIFIER, "b")] := by
    simp [minus_power, py_expr.spell, py_operator.lexeme, py_sign.lexeme]
  rw [hspell]
  exact ⟨by decide, by decide, by decide, by decide, rfl, rfl, rfl⟩

theorem minus_power_grammatical : minus_power.Grammatical := by
  simp [minus_power, py_expr.Grammatical, py_operator.operands, py_expr.level, py_sign.level,
    py_operator.level]

end SysInC.Pythont
