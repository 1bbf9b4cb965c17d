/-
The room on the calculator's stacks. Nothing in `evaluate_expression_iterative` refuses an input
that is too deep: where a stack is full the source asserts, or, for the zero in front of a minus
sign, writes behind the end. An input is safe exactly when each token finds room on the stack that
it is pushed on.
-/
import SysInC.CalcTrees
import Mathlib.Algebra.Order.Ring.Nat

set_option autoImplicit false

namespace SysInC.Calc

variable {V : Type} {A : Arith V}

/-! ## Room -/

/-- The operator on top is applied before `o` is pushed. -/
def TopGoes (o : BinOp) (ops : List Pending) : Prop :=
  ∃ top, ops.head? = some (.op top) ∧ goes_first o top = true

/-- Room for what a token pushes, in the state before it. An operator that takes another off the
stack finds room in its place. -/
def Room (A : Arith V) (st : State V) : Tok → Prop
  | .num _ => st.val_stack.length < CALC_MAX_STACK
  | .var name => (A.calc_get_var name).isSome = true → st.val_stack.length < CALC_MAX_STACK
  | .func _ => st.op_stack.length < CALC_MAX_STACK
  | .lparen => st.op_stack.length < CALC_MAX_STACK
  | .rparen => True
  | .op o =>
    if o = .plus ∧ st.expect_unary = true then True
    else (o = .minus ∧ st.expect_unary = true → st.val_stack.length < CALC_MAX_STACK) ∧
      (st.op_stack.length < CALC_MAX_STACK ∨ TopGoes o st.op_stack)

structure Fits (st : State V) : Prop where
  val_stack : st.val_stack.length ≤ CALC_MAX_STACK
  op_stack : st.op_stack.length ≤ CALC_MAX_STACK

/-- No stack overflows if there is room, and what is on the stacks fits then. -/
def Safe (p : Except Stop (State V)) (room : Prop) : Prop :=
  (p = .error .overflow ↔ ¬ room) ∧ ∀ st, p = .ok st → Fits st

/-! ## Operators -/

theorem apply_top_cases (A : Arith V) (o : BinOp) (vals : List V) :
    apply_top A o vals = .error .failed ∨
      ∃ vals', apply_top A o vals = .ok vals' ∧ vals'.length < vals.length := by
  match vals with
  | [] => exact Or.inl rfl
  | [_] => exact Or.inl rfl
  | b :: a :: vals =>
    rw [apply_top]
    cases A.apply_math_op o a b with
    | none => exact Or.inl rfl
    | some v => exact Or.inr ⟨v :: vals, rfl, Nat.lt_succ_self _⟩

/-- Operators are only taken off. -/
theorem reduce_while_cases (A : Arith V) (goes : BinOp → Bool) (ops : List Pending)
    (vals : List V) :
    reduce_while A goes ops vals = .error .failed ∨
      ∃ ops' vals', reduce_while A goes ops vals = .ok (ops', vals') ∧
        ops'.length ≤ ops.length ∧ vals'.length ≤ vals.length := by
  induction ops generalizing vals with
  | nil => exact Or.inr ⟨[], vals, rfl, le_rfl, le_rfl⟩
  | cons o ops ih =>
    cases o with
    | op o =>
      rw [reduce_while]
      split
      · obtain hfail | ⟨vals', happly, hless⟩ := apply_top_cases A o vals
        · exact Or.inl (by rw [hfail]; rfl)
        · rw [happly]
          obtain hfail | ⟨ops'', vals'', hrest, hops, hvals⟩ := ih vals'
          · exact Or.inl hfail
          · exact Or.inr ⟨ops'', vals'', hrest, hops.trans (Nat.le_succ _), by omega⟩
      · exact Or.inr ⟨_, _, rfl, le_rfl, le_rfl⟩
    | lparen => exact Or.inr ⟨_, _, rfl, le_rfl, le_rfl⟩
    | func name => exact Or.inr ⟨_, _, rfl, le_rfl, le_rfl⟩

variable {st : State V}

theorem safe_ok {room : Prop} (hroom : room) (h : Fits st) : Safe (.ok st) room :=
  ⟨iff_of_false nofun fun hnot => hnot hroom, fun _ hst => Except.ok.inj hst ▸ h⟩

theorem safe_overflow {room : Prop} (h : ¬ room) :
    Safe (.error .overflow : Except Stop (State V)) room :=
  ⟨iff_of_true rfl h, nofun⟩

/-- `return false` overflows nothing. -/
theorem safe_failed {room : Prop} (h : room) : Safe (.error .failed : Except Stop (State V)) room :=
  ⟨iff_of_false nofun fun hnot => hnot h, nofun⟩

theorem push_val_safe (h : Fits st) (v : V) :
    Safe (push_val v st) (st.val_stack.length < CALC_MAX_STACK) := by
  unfold push_val
  split
  · rename_i hroom
    exact safe_ok hroom ⟨hroom, h.op_stack⟩
  · rename_i hfull
    exact safe_overflow hfull

theorem push_op_safe (h : Fits st) (o : Pending) :
    Safe (push_op o st) (st.op_stack.length < CALC_MAX_STACK) := by
  unfold push_op
  split
  · rename_i hroom
    exact safe_ok hroom ⟨h.val_stack, hroom⟩
  · rename_i hfull
    exact safe_overflow hfull

/-- A push that `expect_unary` is set behind. -/
theorem Safe.map {p : Except Stop (State V)} {room : Prop} (h : Safe p room) {f : State V → State V}
    (hf : ∀ st, Fits st → Fits (f st)) : Safe (p.map f) room := by
  cases p with
  | error e => exact ⟨(by rw [← h.1]; rfl), nofun⟩
  | ok st => exact safe_ok (not_not.mp fun hnot => nomatch h.1.mpr hnot) (hf st (h.2 st rfl))

theorem Safe.congr {p : Except Stop (State V)} {room room' : Prop} (h : Safe p room)
    (hroom : room ↔ room') : Safe p room' :=
  ⟨h.1.trans (not_congr hroom), h.2⟩

theorem reduce_while_of_not {o : BinOp} {ops : List Pending} (h : ¬ TopGoes o ops) (vals : List V) :
    reduce_while A (goes_first o) ops vals = .ok (ops, vals) := by
  cases ops with
  | nil => rfl
  | cons top ops =>
    cases top with
    | op top =>
      rw [reduce_while, if_neg]
      exact fun hgoes => h ⟨top, rfl, hgoes⟩
    | lparen => rfl
    | func name => rfl

theorem on_operator_safe (h : Fits st) (o : BinOp) :
    Safe (on_operator A o st) (st.op_stack.length < CALC_MAX_STACK ∨ TopGoes o st.op_stack) := by
  have hpush : ∀ {ops vals}, ops.length ≤ st.op_stack.length → vals.length ≤ st.val_stack.length →
      reduce_while A (goes_first o) st.op_stack st.val_stack = .ok (ops, vals) →
      Safe (on_operator A o st) (ops.length < CALC_MAX_STACK) := by
    intro ops vals hops hvals hreduce
    have hfits : Fits { st with op_stack := ops, val_stack := vals } :=
      ⟨hvals.trans h.val_stack, hops.trans h.op_stack⟩
    unfold on_operator
    rw [hreduce]
    exact (push_op_safe hfits (.op o)).map fun _ hst => ⟨hst.val_stack, hst.op_stack⟩
  by_cases htop : TopGoes o st.op_stack
  · obtain ⟨top, hhead, hgoes⟩ := htop
    obtain ⟨ops, hstack⟩ : ∃ ops, st.op_stack = .op top :: ops :=
      ⟨_, (List.eq_cons_of_mem_head? hhead)⟩
    have hroom : st.op_stack.length < CALC_MAX_STACK ∨ TopGoes o st.op_stack :=
      Or.inr ⟨top, hhead, hgoes⟩
    have hstep : reduce_while A (goes_first o) st.op_stack st.val_stack =
        (apply_top A top st.val_stack).bind (reduce_while A (goes_first o) ops) := by
      rw [hstack, reduce_while, if_pos hgoes]
    have hless : ops.length < CALC_MAX_STACK := by
      have hlen := h.op_stack
      rw [hstack] at hlen
      exact hlen
    have hfailed : reduce_while A (goes_first o) st.op_stack st.val_stack = .error .failed →
        Safe (on_operator A o st)
          (st.op_stack.length < CALC_MAX_STACK ∨ TopGoes o st.op_stack) := by
      intro hfail
      unfold on_operator
      rw [hfail]
      exact safe_failed hroom
    obtain hfail | ⟨vals, happly, hvals⟩ := apply_top_cases A top st.val_stack
    · exact hfailed (by rw [hstep, hfail]; rfl)
    · rw [happly] at hstep
      obtain hfail | ⟨ops', vals', hrest, hops', hvals'⟩ :=
        reduce_while_cases A (goes_first o) ops vals
      · exact hfailed (hstep.trans hfail)
      · have hsafe := hpush (by rw [hstack]; exact hops'.trans (Nat.le_succ _))
          (hvals'.trans hvals.le) (hstep.trans hrest)
        exact hsafe.congr (iff_of_true (hops'.trans_lt hless) hroom)
  · exact (hpush le_rfl le_rfl (reduce_while_of_not htop _)).congr (or_iff_left htop).symm

/-! ## One turn -/

theorem close_group_safe {ops : List Pending} {vals : List V} (hops : ops.length ≤ CALC_MAX_STACK)
    (hvals : vals.length ≤ CALC_MAX_STACK) : Safe (close_group A ops vals) True := by
  have hok : ∀ {ops' : List Pending} {vals' : List V}, ops'.length ≤ CALC_MAX_STACK →
      vals'.length ≤ CALC_MAX_STACK →
      Safe (.ok ⟨vals', ops', false⟩ : Except Stop (State V)) True := fun hops' hvals' =>
    ⟨iff_of_false nofun (not_not_intro trivial), fun _ hst => Except.ok.inj hst ▸ ⟨hvals', hops'⟩⟩
  match ops, vals with
  | [], vals => exact hok (Nat.zero_le _) hvals
  | .op _ :: ops, vals => exact hok (Nat.le_of_succ_le hops) hvals
  | .lparen :: ops, vals => exact hok (Nat.le_of_succ_le hops) hvals
  | .func _ :: ops, [] => exact safe_failed trivial
  | .func fname :: ops, arg :: vals =>
    rw [close_group]
    cases A.apply_func_op fname arg with
    | none => exact safe_failed trivial
    | some res => exact hok (Nat.le_of_succ_le hops) hvals

theorem on_token_safe (h : Fits st) (tok : Tok) : Safe (on_token A st tok) (Room A st tok) := by
  have hkeep : ∀ b, ∀ u : State V, Fits u → Fits { u with expect_unary := b } :=
    fun _ _ hu => ⟨hu.val_stack, hu.op_stack⟩
  cases tok with
  | num n => exact (push_val_safe h _).map (hkeep false)
  | var name =>
    rw [on_token, Room]
    cases A.calc_get_var name with
    | none => exact safe_failed fun hsome => absurd hsome Bool.false_ne_true
    | some v =>
      exact ((push_val_safe h v).map (hkeep false)).congr
        ⟨fun hroom _ => hroom, fun hroom => hroom rfl⟩
  | func name => exact (push_op_safe h _).map (hkeep true)
  | lparen => exact (push_op_safe h _).map (hkeep true)
  | rparen =>
    show Safe (on_close A st) True
    unfold on_close
    obtain hfail | ⟨ops, vals, hreduce, hops, hvals⟩ :=
      reduce_while_cases A (fun _ => true) st.op_stack st.val_stack
    · rw [hfail]
      exact safe_failed trivial
    · rw [hreduce]
      exact close_group_safe (hops.trans h.op_stack) (hvals.trans h.val_stack)
  | op o =>
    rw [on_token, Room]
    split
    · exact safe_ok trivial h
    split
    · rename_i hunary
      obtain rfl := hunary.1
      by_cases hroom : st.val_stack.length < CALC_MAX_STACK
      · have hfits : Fits { st with val_stack := A.zero :: st.val_stack } := ⟨hroom, h.op_stack⟩
        rw [push_val, if_pos hroom]
        exact (on_operator_safe hfits .minus).congr (and_iff_right fun _ => hroom).symm
      · rw [push_val, if_neg hroom]
        exact safe_overflow fun hnot => hroom (hnot.1 hunary)
    · rename_i hbinary
      exact (on_operator_safe h o).congr (and_iff_right fun hnot => absurd hnot hbinary).symm

/-! ## Runs -/

/-- The turns of the loop: the state in front of each, and its token. -/
def turns (A : Arith V) : ℕ → List Char → State V → List (State V × Tok)
  | 0, _, _ => []
  | step_guard + 1, p, st =>
    match p.dropWhile is_blank with
    | [] => []
    | c :: q =>
      match read_token (c :: q) with
      | none => []
      | some (tok, rest) =>
        (st, tok) :: match on_token A st tok with
          | .ok st => turns A step_guard rest st
          | .error _ => []

theorem finish_ne_overflow (A : Arith V) (st : State V) : finish A st ≠ .error .overflow := by
  unfold finish
  obtain hfail | ⟨ops, vals, hreduce, -⟩ :=
    reduce_while_cases A (fun _ => true) st.op_stack st.val_stack
  · rw [hfail]
    nofun
  · rw [hreduce]
    show last_value ops vals ≠ _
    unfold last_value
    split
    · nofun
    · nofun

theorem failed_ne_overflow : (.error .failed : Except Stop V) ≠ .error .overflow := nofun

theorem evaluate_loop_safe (h : Fits st) (step_guard : ℕ) (p : List Char) :
    (evaluate_loop A step_guard p st ≠ .error .overflow ∧
        ∀ t ∈ turns A step_guard p st, Fits t.1) ↔
      ∀ t ∈ turns A step_guard p st, Room A t.1 t.2 := by
  induction step_guard generalizing p st with
  | zero =>
    exact iff_of_true ⟨finish_ne_overflow A st, List.forall_mem_nil _⟩ (List.forall_mem_nil _)
  | succ step_guard ih =>
    rw [evaluate_loop, turns]
    cases p.dropWhile is_blank with
    | nil =>
      exact iff_of_true ⟨finish_ne_overflow A st, List.forall_mem_nil _⟩ (List.forall_mem_nil _)
    | cons c q =>
      dsimp only
      cases read_token (c :: q) with
      | none =>
        exact iff_of_true ⟨failed_ne_overflow, List.forall_mem_nil _⟩ (List.forall_mem_nil _)
      | some r =>
        obtain ⟨tok, rest⟩ := r
        obtain ⟨hiff, hfits⟩ := on_token_safe (A := A) h tok
        dsimp only
        rw [List.forall_mem_cons, List.forall_mem_cons]
        cases hstep : on_token A st tok with
        | error e =>
          have hend : (or_fail (some (tok, rest))).bind (fun r => (on_token A st r.1).bind fun st =>
              evaluate_loop A step_guard r.2 st) = .error e := by
            show (on_token A st tok).bind _ = _
            rw [hstep]
            rfl
          rw [hstep, Except.error.injEq] at hiff
          rw [hend, Ne, Except.error.injEq, hiff, not_not]
          exact and_congr_right' (iff_of_true ⟨h, List.forall_mem_nil _⟩ (List.forall_mem_nil _))
        | ok st' =>
          have hnext : (or_fail (some (tok, rest))).bind (fun r =>
              (on_token A st r.1).bind fun st => evaluate_loop A step_guard r.2 st) =
                evaluate_loop A step_guard rest st' := by
            show (on_token A st tok).bind _ = _
            rw [hstep]
            rfl
          have hroom : Room A st tok := by
            by_contra hnot
            rw [hstep] at hiff
            cases hiff.mpr hnot
          rw [hnext]
          exact (and_congr_right' (and_iff_right h)).trans
            ((ih (hfits st' hstep) rest).trans (and_iff_right hroom).symm)

end SysInC.Calc
