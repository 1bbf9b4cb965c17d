/-
The evaluator on the tokens of an expression, and what it returns for its text.

An expression starts where an operand is expected, with some operators waiting above a bracket or
above nothing, and what is below that bracket stays as it is. When its tokens are read, the stacks
hold what `walk` says.
-/
import SysInC.CalcUnary

set_option autoImplicit false

namespace SysInC.Calc

open SysInC.OperatorStack

/-- The waiting operators, as `op_stack` has them, and their left operands, as `val_stack` has
them. -/
def ops (w : Waiting) : List Pending := w.map fun p => .op p.1

def vals (w : Waiting) : List Tree := w.map Prod.snd

/-- No operator is on top. -/
def Barrier (below : List Pending) : Prop := ∀ o, below.head? ≠ some (.op o)

/-- An operand is expected. -/
def before (w : Waiting) (below : List Pending) (under : List Tree) : State Tree :=
  ⟨vals w ++ under, ops w ++ below, true⟩

/-- An operand has been read. -/
def after (r : Waiting × Tree) (below : List Pending) (under : List Tree) : State Tree :=
  ⟨r.2 :: vals r.1 ++ under, ops r.1 ++ below, false⟩

/-- The tokens lead from one state to the other, if no stack is full on the way. -/
def Reaches (toks : List Tok) (st st' : State Tree) : Prop :=
  toks.foldlM (on_token symbolic) st = .error .overflow ∨
    toks.foldlM (on_token symbolic) st = .ok st'

theorem Reaches.append {toks toks' : List Tok} {st st' st'' : State Tree}
    (h : Reaches toks st st') (h' : Reaches toks' st' st'') : Reaches (toks ++ toks') st st'' := by
  unfold Reaches
  rw [List.foldlM_append]
  obtain h | h := h
  · rw [h]
    exact Or.inl rfl
  · rw [h]
    exact h'

theorem Reaches.cons {tok : Tok} {toks : List Tok} {st st' st'' : State Tree}
    (h : on_token symbolic st tok = .error .overflow ∨ on_token symbolic st tok = .ok st')
    (h' : Reaches toks st' st'') : Reaches (tok :: toks) st st'' := by
  unfold Reaches
  rw [List.foldlM_cons]
  obtain h | h := h
  · rw [h]
    exact Or.inl rfl
  · rw [h]
    exact h'

theorem Reaches.one {tok : Tok} {st st' : State Tree}
    (h : on_token symbolic st tok = .error .overflow ∨ on_token symbolic st tok = .ok st') :
    Reaches [tok] st st' :=
  Reaches.cons h (Or.inr rfl)

theorem push_val_cases (v : Tree) (st : State Tree) : push_val v st = .error .overflow ∨
    push_val v st = .ok { st with val_stack := v :: st.val_stack } := by
  unfold push_val
  split
  · exact Or.inr rfl
  · exact Or.inl rfl

theorem push_op_cases (o : Pending) (st : State Tree) : push_op o st = .error .overflow ∨
    push_op o st = .ok { st with op_stack := o :: st.op_stack } := by
  unfold push_op
  split
  · exact Or.inr rfl
  · exact Or.inl rfl

/-! ## Operators -/

/-- The loop that takes operators off the stack is `collapse`. -/
theorem reduce_while_eq (goes : BinOp → Bool) {below : List Pending} (hbelow : Barrier below)
    (under : List Tree) (w : Waiting) (v : Tree) :
    reduce_while symbolic goes (ops w ++ below) (v :: vals w ++ under) =
      .ok (ops (collapse Tree.bin goes w v).1 ++ below,
        (collapse Tree.bin goes w v).2 :: vals (collapse Tree.bin goes w v).1 ++ under) := by
  induction w generalizing v with
  | nil =>
      cases below with
      | nil => rfl
      | cons o below =>
          cases o with
          | op o => exact absurd rfl (hbelow o)
          | lparen => rfl
          | func name => rfl
  | cons p w ih =>
      show reduce_while symbolic goes (.op p.1 :: (ops w ++ below))
        (v :: p.2 :: (vals w ++ under)) = _
      rw [reduce_while, collapse]
      split
      · exact ih _
      · rfl

/-- All operators are taken off. -/
theorem collapse_all (w : Waiting) (v : Tree) :
    collapse Tree.bin (fun _ => true) w v = ([], close Tree.bin w v) := by
  have h : collapse Tree.bin (fun _ => true) (w ++ []) v = ([], close Tree.bin w v) :=
    collapse_append Tree.bin (fun _ _ => rfl) [] v
  rwa [List.append_nil] at h

theorem on_operator_cases (o : BinOp) {below : List Pending} (hbelow : Barrier below)
    (under : List Tree) (w : Waiting) (v : Tree) (unary : Bool) :
    on_operator symbolic o ⟨v :: vals w ++ under, ops w ++ below, unary⟩ = .error .overflow ∨
      on_operator symbolic o ⟨v :: vals w ++ under, ops w ++ below, unary⟩ =
        .ok (before (on_op o w v) below under) := by
  unfold on_operator
  rw [reduce_while_eq _ hbelow]
  obtain h | h := push_op_cases (.op o)
    ⟨(collapse Tree.bin (goes_first o) w v).2 :: vals (collapse Tree.bin (goes_first o) w v).1 ++
      under, ops (collapse Tree.bin (goes_first o) w v).1 ++ below, unary⟩
  · refine Or.inl ?_
    show (push_op _ _).map _ = _
    rw [h]
    rfl
  · refine Or.inr ?_
    show (push_op _ _).map _ = _
    rw [h]
    rfl

/-- An operator behind an operand. -/
theorem reaches_op (o : BinOp) {below : List Pending} (hbelow : Barrier below)
    (under : List Tree) (r : Waiting × Tree) :
    Reaches [.op o] (after r below under) (before (on_op o r.1 r.2) below under) := by
  apply Reaches.one
  have htok : on_token symbolic (after r below under) (.op o) =
      on_operator symbolic o (after r below under) := by
    rw [on_token, if_neg (fun h => Bool.false_ne_true h.2),
      if_neg (fun h => Bool.false_ne_true h.2)]
  rw [htok]
  exact on_operator_cases o hbelow under r.1 r.2 false

/-- A minus sign: a zero, and the operator behind it. -/
theorem reaches_minus {below : List Pending} (hbelow : Barrier below) (under : List Tree)
    (w : Waiting) :
    Reaches [.op .minus] (before w below under) (before (on_op .minus w .zero) below under) := by
  apply Reaches.one
  have htok : on_token symbolic (before w below under) (.op .minus) =
      (push_val .zero (before w below under)).bind fun st => on_operator symbolic .minus st := rfl
  rw [htok]
  obtain h | h := push_val_cases .zero (before w below under)
  · rw [h]
    exact Or.inl rfl
  · rw [h]
    exact on_operator_cases .minus hbelow under w .zero true

/-! ## Expressions -/

/-- **The tokens of an expression are read as `walk` says.** -/
theorem Syn.reaches {l : Level} (e : Syn l) (w : Waiting) {below : List Pending}
    (hbelow : Barrier below) (under : List Tree) :
    Reaches e.tokens (before w below under) (after (e.walk w) below under) := by
  induction e generalizing w below under with
  | num n =>
      apply Reaches.one
      have htok : on_token symbolic (before w below under) (.num n.val) =
        (push_val (.num n.val) (before w below under)).map fun st =>
          { st with expect_unary := false } := rfl
      rw [htok]
      obtain h | h := push_val_cases (.num n.val) (before w below under)
      · rw [h]
        exact Or.inl rfl
      · rw [h]
        exact Or.inr rfl
  | group b e ih =>
      have htokens : (Syn.group b e).tokens = [.lparen] ++ e.tokens ++ [.rparen] := by
        rw [Syn.tokens, Syn.items, List.map_cons, List.map_append]
        rfl
      have hopen : Reaches [.lparen] (before w below under)
          (before [] (.lparen :: (ops w ++ below)) (vals w ++ under)) := by
        apply Reaches.one
        have htok : on_token symbolic (before w below under) .lparen =
          (push_op .lparen (before w below under)).map fun st =>
            { st with expect_unary := true } := rfl
        rw [htok]
        obtain h | h := push_op_cases .lparen (before w below under)
        · rw [h]
          exact Or.inl rfl
        · rw [h]
          exact Or.inr rfl
      have hbracket : Barrier (.lparen :: (ops w ++ below)) := fun o h =>
        Pending.noConfusion (Option.some.inj h)
      have hclose : Reaches [.rparen]
          (after (e.walk []) (.lparen :: (ops w ++ below)) (vals w ++ under))
          (after ((Syn.group b e).walk w) below under) := by
        apply Reaches.one
        refine Or.inr ?_
        have htok : on_token symbolic
            (after (e.walk []) (.lparen :: (ops w ++ below)) (vals w ++ under)) .rparen =
          on_close symbolic
            (after (e.walk []) (.lparen :: (ops w ++ below)) (vals w ++ under)) := rfl
        rw [htok, on_close, after, reduce_while_eq _ hbracket, collapse_all]
        rfl
      rw [htokens]
      exact (hopen.append (ih [] hbracket (vals w ++ under))).append hclose
  | atom a ih => exact ih w hbelow under
  | pow a f iha ihf =>
      have htokens : (Syn.pow a f).tokens = a.tokens ++ ([.op .pow] ++ f.tokens) := List.map_append
      rw [htokens]
      exact (iha w hbelow under).append ((reaches_op .pow hbelow under _).append
        (ihf _ hbelow under))
  | power p ih => exact ih w hbelow under
  | sign o f ih =>
      cases o with
      | plus => exact Reaches.cons (Or.inr rfl) (ih w hbelow under)
      | minus =>
          have htokens : (Syn.sign .minus f).tokens = [.op .minus] ++ f.tokens := rfl
          rw [htokens]
          exact (reaches_minus hbelow under w).append (ih _ hbelow under)
  | factor f ih => exact ih w hbelow under
  | mul o t f iht ihf =>
      have htokens : (Syn.mul o t f).tokens = t.tokens ++ ([.op o.op] ++ f.tokens) :=
        List.map_append
      rw [htokens]
      exact (iht w hbelow under).append ((reaches_op o.op hbelow under _).append
        (ihf _ hbelow under))
  | term t ih => exact ih w hbelow under
  | add o e t ihe iht =>
      have htokens : (Syn.add o e t).tokens = e.tokens ++ ([.op o.op] ++ t.tokens) :=
        List.map_append
      rw [htokens]
      exact (ihe w hbelow under).append ((reaches_op o.op hbelow under _).append
        (iht _ hbelow under))

/-- Each item takes a character at least. -/
theorem Spelled.length_le {items : List (Tok × List Char)} {s : List Char}
    (h : Spelled items s) (hsep : Separated items) : items.length ≤ s.length := by
  induction h with
  | done blanks _ => exact Nat.zero_le _
  | item blanks _ i hs ih =>
      have hrest := ih hsep.2.2
      have hpos : 0 < i.2.length := by
        obtain ⟨n, rfl⟩ | ⟨c, hc, -⟩ := hsep.1
        · have hstarts := starts_number_append (p := []) n.property
          rw [List.append_nil] at hstarts
          refine List.length_pos_of_ne_nil fun hnil => ?_
          dsimp only at hnil
          rw [hnil] at hstarts
          exact Bool.false_ne_true hstarts
        · rw [hc]
          exact Nat.zero_lt_one
      rw [List.length_cons, List.length_append, List.length_append]
      omega

/-! ## The value of an expression -/

/-- Neither stack is full when something is pushed. What is pushed does not depend on the
arithmetic. -/
def FitsStacks (input_str : List Char) : Prop :=
  evaluate_expression_iterative symbolic input_str ≠ .error .overflow

instance (input_str : List Char) : Decidable (FitsStacks input_str) :=
  inferInstanceAs (Decidable (_ ≠ _))

/-- Over trees the evaluator returns the tree that `walk` gives. -/
theorem evaluate_symbolic (e : Syn .expr) {s : List Char} (hs : Spelled e.items s)
    (hlen : s.length < CALC_MAX_EXPR) (hfit : FitsStacks s) :
    evaluate_expression_iterative symbolic s = .ok e.shunted := by
  have hsep : Separated e.items := by
    have h : Separated (e.items ++ []) := e.separated trivial fun _ h => nomatch h
    rwa [List.append_nil] at h
  have hguard : e.items.length ≤ CALC_MAX_STEPS :=
    (hs.length_le hsep).trans (hlen.le.trans (by decide))
  have hrun : evaluate_expression_iterative symbolic s =
      (e.tokens.foldlM (on_token symbolic) ⟨[], [], true⟩).bind (finish symbolic) :=
    evaluate_loop_items symbolic hs hsep hguard _
  have hbottom : Barrier [] := fun o h => nomatch h
  rw [FitsStacks, hrun] at hfit
  rw [hrun]
  obtain h | h := e.reaches [] hbottom []
  · have hstart : before [] [] [] = ⟨[], [], true⟩ := rfl
    rw [hstart] at h
    exact absurd (by rw [h]; rfl) hfit
  · have hstart : before [] [] [] = ⟨[], [], true⟩ := rfl
    rw [hstart] at h
    rw [h]
    show finish symbolic (after (e.walk []) [] []) = _
    rw [finish, after, reduce_while_eq _ hbottom, collapse_all]
    rfl

theorem eval_symbolic (t : Tree) : t.eval symbolic = some t := by
  induction t with
  | zero => rfl
  | num n => rfl
  | var name => rfl
  | bin o l r ihl ihr => rw [Tree.eval, ihl, ihr]; rfl
  | func name t ih => rw [Tree.eval, ih]; rfl

/-- **The evaluator returns the value of the parse tree exactly when every minus sign leads**: it
stands at the front of its brackets, and what it stands in front of is no operand of `*`, `/`
or `%`. -/
theorem evaluate_eq_tree_iff (e : Syn .expr) {s : List Char} (hs : Spelled e.items s)
    (hlen : s.length < CALC_MAX_EXPR) (hfit : FitsStacks s) :
    (∀ (V : Type) (A : Arith V),
      evaluate_expression_iterative A s = or_fail (e.tree.eval A)) ↔ e.SignsLead := by
  have hrun := evaluate_symbolic e hs hlen hfit
  rw [← shunted_eq_iff]
  constructor
  · intro h
    have htrees := h Tree symbolic
    rw [hrun, eval_symbolic] at htrees
    exact Except.ok.inj htrees
  · intro h V A
    rw [← h]
    exact evaluate_eq_eval A s hrun

/-! ### Two expressions -/

def digit (d : Char) (h : isdigit d = true ∧ digit_of 10 d = true) : Syn .atom :=
  .num ⟨[d], Or.inl ⟨[d], [], [], rfl, {
    int_digits := fun c hc => by
      rw [List.mem_singleton.mp hc]
      exact h.2
    frac_digits := Or.inl rfl
    exp_digits := Or.inl rfl
    starts := by
      show (isdigit d || _) = true
      rw [h.1, Bool.true_or] }⟩⟩

def two : Syn .factor := .power (.atom (digit '2' ⟨rfl, rfl⟩))

def three : Syn .factor := .power (.atom (digit '3' ⟨rfl, rfl⟩))

/-- Items that follow each other without blanks. -/
theorem Spelled.close_up (i : Tok × List Char) {rest : List (Tok × List Char)} {s : List Char}
    (hs : Spelled rest s) : Spelled (i :: rest) (i.2 ++ s) :=
  Spelled.item [] (fun _ hc => absurd hc List.not_mem_nil) i hs

theorem Spelled.nothing : Spelled [] [] := Spelled.done [] fun _ hc => absurd hc List.not_mem_nil

/-- Numerals of one digit, with three operators. -/
def integers : Arith ℤ where
  zero := 0
  number n := (n.head?.map fun d => (d.toNat : ℤ) - '0'.toNat).getD 0
  calc_get_var _ := none
  apply_math_op o a b :=
    match o with
    | .plus => some (a + b)
    | .minus => some (a - b)
    | .mul => some (a * b)
    | _ => none
  apply_func_op _ _ := none

/-- `-2+3` -/
theorem evaluate_eq_tree_iff_sum :
    evaluate_expression_iterative integers ['-', '2', '+', '3'] =
      or_fail ((Syn.add .plus (.term (.factor (.sign .minus two)))
        (.factor three)).tree.eval integers) :=
  (evaluate_eq_tree_iff (.add .plus (.term (.factor (.sign .minus two))) (.factor three))
    (.close_up _ (.close_up _ (.close_up _ (.close_up _ .nothing)))) (by decide)
    (by decide)).mpr ⟨⟨trivial, trivial⟩, trivial, trivial⟩ ℤ integers

/-- `2*-3` is read as `(2*0)-3`. -/
theorem sign_behind_operator :
    ¬∀ (e : Syn .expr) (s : List Char), Spelled e.items s → s.length < CALC_MAX_EXPR →
      FitsStacks s → ∀ (V : Type) (A : Arith V),
        evaluate_expression_iterative A s = or_fail (e.tree.eval A) := by
  intro h
  have heval := h (.term (.mul .mul (.factor two) (.sign .minus three))) ['2', '*', '-', '3']
    (.close_up _ (.close_up _ (.close_up _ (.close_up _ .nothing)))) (by decide) (by decide) ℤ
    integers
  have hcode : evaluate_expression_iterative integers ['2', '*', '-', '3'] = .ok (-3) := by
    decide
  have htree : (Syn.mul .mul (.factor two) (.sign .minus three)).tree.eval integers =
      some (-6) := by decide
  rw [hcode, Syn.tree, htree] at heval
  exact absurd (Except.ok.inj heval) (by decide)

end SysInC.Calc
