/-
The evaluator as a translation into postfix notation. The operator stack alone decides in which
order operands, operators and functions are applied; what is applied then goes to the value stack.
An input is accepted exactly when the items, in that order, are the postfix notation of a tree that
has a value.
-/
import SysInC.CalcCorrect

set_option autoImplicit false

namespace SysInC.Calc

/-! ## Postfix notation -/

inductive Item where
  | zero
  | num (numeral : List Char)
  | var (name : List Char)
  | op (o : BinOp)
  | func (name : List Char)
deriving DecidableEq

/-- The postfix notation of a tree. -/
def Tree.rpn : Tree → List Item
  | .zero => [.zero]
  | .num n => [.num n]
  | .var name => [.var name]
  | .bin o l r => l.rpn ++ r.rpn ++ [.op o]
  | .func name t => t.rpn ++ [.func name]

/-- An item on the trees that wait, the last in front. -/
def put : List Tree → Item → Option (List Tree)
  | ts, .zero => some (.zero :: ts)
  | ts, .num n => some (.num n :: ts)
  | ts, .var name => some (.var name :: ts)
  | r :: l :: ts, .op o => some (.bin o l r :: ts)
  | t :: ts, .func name => some (.func name t :: ts)
  | _, _ => none

theorem rpn_put (t : Tree) (ts : List Tree) : t.rpn.foldlM put ts = some (t :: ts) := by
  induction t generalizing ts with
  | zero => rfl
  | num n => rfl
  | var name => rfl
  | bin o l r ihl ihr =>
      rw [Tree.rpn, List.foldlM_append, List.foldlM_append, ihl]
      show (r.rpn.foldlM put (l :: ts)).bind _ = _
      rw [ihr]
      rfl
  | func name t ih =>
      rw [Tree.rpn, List.foldlM_append, ih]
      rfl

/-- What the trees that wait are the notation of. -/
def spelled (ts : List Tree) : List Item := ts.reverse.flatMap Tree.rpn

theorem spelled_cons (t : Tree) (ts : List Tree) : spelled (t :: ts) = spelled ts ++ t.rpn := by
  rw [spelled, List.reverse_cons, List.flatMap_append, List.flatMap_singleton, ← spelled]

theorem put_spelled {ts ts' : List Tree} {i : Item} (h : put ts i = some ts') :
    spelled ts' = spelled ts ++ [i] := by
  match ts, i, h with
  | ts, .zero, h => rw [← Option.some.inj h, spelled_cons, Tree.rpn]
  | ts, .num n, h => rw [← Option.some.inj h, spelled_cons, Tree.rpn]
  | ts, .var name, h => rw [← Option.some.inj h, spelled_cons, Tree.rpn]
  | r :: l :: ts, .op o, h =>
      rw [← Option.some.inj h, spelled_cons, spelled_cons, spelled_cons, Tree.rpn]
      simp only [List.append_assoc]
  | t :: ts, .func name, h =>
      rw [← Option.some.inj h, spelled_cons, spelled_cons, Tree.rpn, List.append_assoc]

theorem puts_spelled {items : List Item} {ts ts' : List Tree}
    (h : items.foldlM put ts = some ts') : spelled ts' = spelled ts ++ items := by
  induction items generalizing ts with
  | nil => rw [← Option.some.inj h, List.append_nil]
  | cons i items ih =>
      obtain ⟨ts₁, hput, hrest⟩ := Option.bind_eq_some_iff.mp h
      rw [ih hrest, put_spelled hput, List.append_assoc, List.singleton_append]

/-- One tree is left exactly by its own notation. -/
theorem puts_eq_iff {items : List Item} {t : Tree} :
    items.foldlM put [] = some [t] ↔ items = t.rpn := by
  constructor
  · intro h
    have hspelled := puts_spelled h
    rwa [spelled_cons, eq_comm] at hspelled
  · rintro rfl
    exact rpn_put t []

/-! ## The operator stack -/

/-- The operators that go, and what stays. -/
def leaving (goes : BinOp → Bool) : List Pending → List Item × List Pending
  | .op o :: ops =>
      if goes o then (.op o :: (leaving goes ops).1, (leaving goes ops).2) else ([], .op o :: ops)
  | ops => ([], ops)

/-- What a closing bracket takes off. -/
def closing : List Pending → List Item × List Pending
  | .op o :: ops => (.op o :: (closing ops).1, (closing ops).2)
  | .func name :: ops => ([.func name], ops)
  | .lparen :: ops => ([], ops)
  | [] => ([], [])

/-- What the end of the input takes off, when no bracket is open. -/
def closing_all : List Pending → Option (List Item)
  | .op o :: ops => (closing_all ops).map (.op o :: ·)
  | [] => some []
  | _ => none

/-- What waits, and whether an operand is expected. -/
structure Yard where
  op_stack : List Pending
  expect_unary : Bool

/-- What a token sends on, and what waits behind it. -/
def shunt (y : Yard) : Tok → List Item × Yard
  | .num n => ([.num n], ⟨y.op_stack, false⟩)
  | .var name => ([.var name], ⟨y.op_stack, false⟩)
  | .func name => ([], ⟨.func name :: y.op_stack, true⟩)
  | .lparen => ([], ⟨.lparen :: y.op_stack, true⟩)
  | .rparen => ((closing y.op_stack).1, ⟨(closing y.op_stack).2, false⟩)
  | .op o =>
      let r := leaving (goes_first o) y.op_stack
      if o = .plus ∧ y.expect_unary = true then ([], y)
      else if o = .minus ∧ y.expect_unary = true then (.zero :: r.1, ⟨.op o :: r.2, true⟩)
      else (r.1, ⟨.op o :: r.2, true⟩)

/-- The tokens in the order in which they are applied; none when a bracket is open at the end. -/
def to_rpn (y : Yard) : List Tok → Option (List Item)
  | [] => closing_all y.op_stack
  | tok :: toks => (to_rpn (shunt y tok).2 toks).map ((shunt y tok).1 ++ ·)

/-! ## The evaluator over trees -/

/-- A computation on the value stack that may fail. -/
def Puts {α : Type} (p : Except Stop α) (items : List Item) (ts : List Tree)
    (f : List Tree → α) : Prop :=
  p = (or_fail (items.foldlM put ts)).map f

theorem apply_top_puts (o : BinOp) (ts : List Tree) :
    apply_top symbolic o ts = or_fail (put ts (.op o)) := by
  match ts with
  | [] => rfl
  | [_] => rfl
  | _ :: _ :: _ => rfl

theorem reduce_while_puts (goes : BinOp → Bool) (ops : List Pending) (ts : List Tree) :
    Puts (reduce_while symbolic goes ops ts) (leaving goes ops).1 ts
      fun ts => ((leaving goes ops).2, ts) := by
  induction ops generalizing ts with
  | nil => rfl
  | cons p ops ih =>
      cases p with
      | op o =>
          rw [reduce_while, leaving]
          split
          · rw [apply_top_puts, Puts, List.foldlM_cons]
            cases hput : put ts (.op o) with
            | none => rfl
            | some ts' => exact ih ts'
          · rfl
      | lparen => rfl
      | func name => rfl

theorem on_close_puts (st : State Tree) :
    Puts (on_close symbolic st) (closing st.op_stack).1 st.val_stack
      fun ts => ⟨ts, (closing st.op_stack).2, false⟩ := by
  obtain ⟨ts, ops, unary⟩ := st
  unfold on_close
  dsimp only
  induction ops generalizing ts with
  | nil => rfl
  | cons p ops ih =>
      cases p with
      | op o =>
          rw [reduce_while, if_pos rfl, apply_top_puts, Puts, closing, List.foldlM_cons]
          cases hput : put ts (.op o) with
          | none => rfl
          | some ts' => exact ih ts'
      | lparen => rfl
      | func name =>
          cases ts with
          | nil => rfl
          | cons t ts => rfl

theorem on_operator_puts (o : BinOp) (st : State Tree) :
    on_operator symbolic o st = .error .overflow ∨
      Puts (on_operator symbolic o st) (leaving (goes_first o) st.op_stack).1 st.val_stack
        fun ts => ⟨ts, .op o :: (leaving (goes_first o) st.op_stack).2, true⟩ := by
  unfold on_operator Puts
  rw [reduce_while_puts]
  cases (leaving (goes_first o) st.op_stack).1.foldlM put st.val_stack with
  | none => exact Or.inr rfl
  | some ts =>
      obtain hfull | hpush := push_op_cases (.op o)
        { st with op_stack := (leaving (goes_first o) st.op_stack).2, val_stack := ts }
      · refine Or.inl ?_
        show (push_op _ _).map _ = _
        rw [hfull]
        rfl
      · refine Or.inr ?_
        show (push_op _ _).map _ = _
        rw [hpush]
        rfl

/-- The state with what waits in it. -/
def Yard.with_vals (y : Yard) (ts : List Tree) : State Tree := ⟨ts, y.op_stack, y.expect_unary⟩

theorem on_token_puts (y : Yard) (ts : List Tree) (tok : Tok) :
    on_token symbolic (y.with_vals ts) tok = .error .overflow ∨
      Puts (on_token symbolic (y.with_vals ts) tok) (shunt y tok).1 ts
        (shunt y tok).2.with_vals := by
  have hval : ∀ (t : Tree) (i : Item), put ts i = some (t :: ts) →
      (push_val t (y.with_vals ts)).map (fun st => { st with expect_unary := false }) =
        .error .overflow ∨
      Puts ((push_val t (y.with_vals ts)).map fun st => { st with expect_unary := false }) [i] ts
        (Yard.with_vals ⟨y.op_stack, false⟩) := by
    intro t i hput
    obtain hfull | hpush := push_val_cases t (y.with_vals ts)
    · rw [hfull]
      exact Or.inl rfl
    · rw [hpush, Puts, List.foldlM_cons, hput]
      exact Or.inr rfl
  have hop : ∀ p : Pending,
      (push_op p (y.with_vals ts)).map (fun st => { st with expect_unary := true }) =
        .error .overflow ∨
      Puts ((push_op p (y.with_vals ts)).map fun st => { st with expect_unary := true }) [] ts
        (Yard.with_vals ⟨p :: y.op_stack, true⟩) := by
    intro p
    obtain hfull | hpush := push_op_cases p (y.with_vals ts)
    · rw [hfull]
      exact Or.inl rfl
    · rw [hpush]
      exact Or.inr rfl
  cases tok with
  | num n => exact hval (.num n) (.num n) rfl
  | var name => exact hval (.var name) (.var name) rfl
  | func name => exact hop (.func name)
  | lparen => exact hop .lparen
  | rparen => exact Or.inr (on_close_puts (y.with_vals ts))
  | op o =>
      rw [on_token, shunt]
      have hunary : (y.with_vals ts).expect_unary = y.expect_unary := rfl
      rw [hunary]
      split
      · exact Or.inr rfl
      split
      · rename_i hminus
        obtain rfl := hminus.1
        -- the sign is an operator behind a zero
        obtain hfull | hpush := push_val_cases .zero (y.with_vals ts)
        · refine Or.inl ?_
          show (push_val Tree.zero _).bind _ = _
          rw [hfull]
          rfl
        · show (push_val Tree.zero _).bind _ = _ ∨ Puts ((push_val Tree.zero _).bind _) _ _ _
          rw [hpush]
          exact on_operator_puts .minus (y.with_vals (.zero :: ts))
      · exact on_operator_puts o (y.with_vals ts)

section

variable {front : List Item} {rest : Option (List Item)} {ts ts' out : List Tree}

theorem put_append_none (h : front.foldlM put ts = none) :
    ¬ ∃ items, rest.map (front ++ ·) = some items ∧ items.foldlM put ts = some out := by
  rintro ⟨_, hitems, hput⟩
  obtain ⟨items, -, rfl⟩ := Option.map_eq_some_iff.mp hitems
  rw [List.foldlM_append, h] at hput
  exact nomatch hput

theorem put_append_some (h : front.foldlM put ts = some ts') :
    (∃ items, rest.map (front ++ ·) = some items ∧ items.foldlM put ts = some out) ↔
      ∃ items, rest = some items ∧ items.foldlM put ts' = some out := by
  constructor
  · rintro ⟨_, hitems, hput⟩
    obtain ⟨items, hrest, rfl⟩ := Option.map_eq_some_iff.mp hitems
    rw [List.foldlM_append, h] at hput
    exact ⟨items, hrest, hput⟩
  · rintro ⟨items, hrest, hput⟩
    refine ⟨front ++ items, by rw [hrest]; rfl, ?_⟩
    rw [List.foldlM_append, h]
    exact hput

end

theorem last_value_iff {ops : List Pending} {ts : List Tree} {t : Tree} :
    last_value ops ts = .ok t ↔ ops = [] ∧ ts = [t] := by
  unfold last_value
  split
  · rw [Except.ok.injEq, List.singleton_inj]
    exact (and_iff_right rfl).symm
  · rename_i hnot
    refine iff_of_false nofun ?_
    rintro ⟨rfl, rfl⟩
    exact hnot t rfl rfl

theorem finish_puts (y : Yard) (ts : List Tree) (t : Tree) :
    finish symbolic (y.with_vals ts) = .ok t ↔
      ∃ items, closing_all y.op_stack = some items ∧ items.foldlM put ts = some [t] := by
  obtain ⟨ops, unary⟩ := y
  unfold finish
  show (reduce_while symbolic (fun _ => true) ops ts).bind _ = _ ↔ _
  induction ops generalizing ts with
  | nil =>
      constructor
      · intro h
        obtain ⟨-, rfl⟩ := last_value_iff.mp h
        exact ⟨[], rfl, rfl⟩
      · rintro ⟨items, hitems, hput⟩
        obtain rfl := Option.some.inj hitems
        exact last_value_iff.mpr ⟨rfl, Option.some.inj hput⟩
  | cons p ops ih =>
      cases p with
      | op o =>
          rw [reduce_while, if_pos rfl, apply_top_puts, closing_all]
          cases hput : put ts (.op o) with
          | none =>
              have hnone : [Item.op o].foldlM put ts = none := by rw [List.foldlM_cons, hput]; rfl
              refine iff_of_false (fun hfail => ?_) (put_append_none hnone)
              cases hfail
          | some ts' =>
              have hsome : [Item.op o].foldlM put ts = some ts' := by
                rw [List.foldlM_cons, hput]
                rfl
              exact (ih ts').trans (put_append_some hsome).symm
      | lparen =>
          refine iff_of_false (fun h : last_value (.lparen :: ops) ts = .ok t =>
            absurd (last_value_iff.mp h).1 (List.cons_ne_nil _ _)) ?_
          rintro ⟨_, hnone, -⟩
          cases hnone
      | func name =>
          refine iff_of_false (fun h : last_value (.func name :: ops) ts = .ok t =>
            absurd (last_value_iff.mp h).1 (List.cons_ne_nil _ _)) ?_
          rintro ⟨_, hnone, -⟩
          cases hnone

theorem run_puts (toks : List Tok) (y : Yard) (ts : List Tree)
    (hfit : (toks.foldlM (on_token symbolic) (y.with_vals ts)).bind (finish symbolic) ≠
      .error .overflow) (t : Tree) :
    (toks.foldlM (on_token symbolic) (y.with_vals ts)).bind (finish symbolic) = .ok t ↔
      ∃ items, to_rpn y toks = some items ∧ items.foldlM put ts = some [t] := by
  induction toks generalizing y ts with
  | nil => exact finish_puts y ts t
  | cons tok toks ih =>
      rw [List.foldlM_cons] at hfit ⊢
      obtain hfull | hstep := on_token_puts y ts tok
      · rw [hfull] at hfit
        exact absurd rfl hfit
      · rw [hstep] at hfit ⊢
        cases hput : (shunt y tok).1.foldlM put ts with
        | none => exact iff_of_false nofun (put_append_none hput)
        | some ts' =>
            rw [hput] at hfit
            exact (ih _ ts' hfit).trans (put_append_some hput).symm

end SysInC.Calc
