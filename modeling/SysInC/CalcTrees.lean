/-
The evaluator over syntax trees instead of numbers. What it does to the stacks does not depend on
the arithmetic, so that over any arithmetic it returns the value of the tree that it returns over
trees, or fails when that tree has no value.

The two runs stay in step until an operator, a function or a variable refuses. From there on the
tree on the stack has no value, and nothing gives it one again.
-/
import SysInC.Calc

set_option autoImplicit false

namespace SysInC.Calc

inductive Tree where
  | zero
  | num (numeral : List Char)
  | var (name : List Char)
  | bin (o : BinOp) (l r : Tree)
  | func (name : List Char) (t : Tree)
deriving DecidableEq

variable {V : Type}

def Tree.eval (A : Arith V) : Tree → Option V
  | .zero => some A.zero
  | .num n => some (A.number n)
  | .var name => A.calc_get_var name
  | .bin o l r => (l.eval A).bind fun a => (r.eval A).bind fun b => A.apply_math_op o a b
  | .func name t => (t.eval A).bind (A.apply_func_op name)

/-- The arithmetic of trees, which never refuses. -/
def symbolic : Arith Tree where
  zero := .zero
  number := .num
  calc_get_var name := some (.var name)
  apply_math_op o a b := some (.bin o a b)
  apply_func_op name t := some (.func name t)

/-! ## Two runs in step -/

section

variable {α β α' β' : Type}

/-- The second computation follows the first: their results are in `R`, or the second has failed
and the first one's result is in `P`. Nothing is said where the first overflows. -/
def Follows (R : α → β → Prop) (P : α → Prop) : Except Stop α → Except Stop β → Prop
  | .error .overflow, _ => True
  | .error .failed, q => q = .error .failed
  | .ok a, q => (∃ b, q = .ok b ∧ R a b) ∨ (q = .error .failed ∧ P a)

/-- What a computation returns, if it returns. -/
def Leads (P : α → Prop) : Except Stop α → Prop
  | .error _ => True
  | .ok a => P a

theorem Follows.ok {R : α → β → Prop} {P : α → Prop} {a : α} {b : β} (h : R a b) :
    Follows R P (.ok a) (.ok b) :=
  Or.inl ⟨b, rfl, h⟩

theorem Follows.of_leads {R : α → β → Prop} {P : α → Prop} {p : Except Stop α}
    (h : Leads P p) : Follows R P p (.error .failed) := by
  match p, h with
  | .error .overflow, _ => trivial
  | .error .failed, _ => rfl
  | .ok a, h => exact Or.inr ⟨rfl, h⟩

theorem Follows.bind {R : α → β → Prop} {P : α → Prop} {R' : α' → β' → Prop} {P' : α' → Prop}
    {p : Except Stop α} {q : Except Stop β} {f : α → Except Stop α'} {g : β → Except Stop β'}
    (h : Follows R P p q) (hf : ∀ a b, R a b → Follows R' P' (f a) (g b))
    (hP : ∀ a, P a → Leads P' (f a)) : Follows R' P' (p.bind f) (q.bind g) := by
  match p, h with
  | .error .overflow, _ => trivial
  | .error .failed, h =>
      obtain rfl : q = .error .failed := h
      rfl
  | .ok a, h =>
      obtain ⟨b, rfl, hab⟩ | ⟨rfl, ha⟩ := h
      · exact hf a b hab
      · exact Follows.of_leads (hP a ha)

theorem Leads.bind {P : α → Prop} {P' : α' → Prop} {p : Except Stop α}
    {f : α → Except Stop α'} (h : Leads P p) (hf : ∀ a, P a → Leads P' (f a)) :
    Leads P' (p.bind f) := by
  match p, h with
  | .error _, _ => trivial
  | .ok a, h => exact hf a h

end

/-! ## The stacks -/

/-- The values of the trees. -/
def Values (A : Arith V) (trees : List Tree) (vals : List V) : Prop :=
  trees.map (Tree.eval A) = vals.map some

/-- One of the trees has no value. -/
def Poisoned (A : Arith V) (trees : List Tree) : Prop := ∃ t ∈ trees, t.eval A = none

def StateValues (A : Arith V) (st : State Tree) (st' : State V) : Prop :=
  Values A st.val_stack st'.val_stack ∧ st'.op_stack = st.op_stack ∧
    st'.expect_unary = st.expect_unary

def StatePoisoned (A : Arith V) (st : State Tree) : Prop := Poisoned A st.val_stack

theorem Values.length {A : Arith V} {trees : List Tree} {vals : List V}
    (h : Values A trees vals) : vals.length = trees.length := by
  have := congrArg List.length h
  rw [List.length_map, List.length_map] at this
  exact this.symm

theorem Values.cons {A : Arith V} {t : Tree} {v : V} {trees : List Tree} {vals : List V}
    (ht : t.eval A = some v) (h : Values A trees vals) : Values A (t :: trees) (v :: vals) := by
  rw [Values, List.map_cons, List.map_cons, ht, h]

/-- Values come apart as their trees do. -/
theorem Values.uncons {A : Arith V} {t : Tree} {trees : List Tree} {vals : List V}
    (h : Values A (t :: trees) vals) :
    ∃ v rest, vals = v :: rest ∧ t.eval A = some v ∧ Values A trees rest := by
  cases vals with
  | nil => exact nomatch h
  | cons v rest =>
      rw [Values, List.map_cons, List.map_cons, List.cons.injEq] at h
      exact ⟨v, rest, rfl, h.1, h.2⟩

theorem Values.nil_left {A : Arith V} {vals : List V} (h : Values A [] vals) : vals = [] :=
  List.eq_nil_of_length_eq_zero h.length

theorem Poisoned.cons {A : Arith V} {trees : List Tree} (h : Poisoned A trees) (t : Tree) :
    Poisoned A (t :: trees) := by
  obtain ⟨u, hu, hnone⟩ := h
  exact ⟨u, List.mem_cons_of_mem _ hu, hnone⟩

section

-- the equations of these are made here, and not by each proof anew
attribute [local simp] Tree.eval apply_top reduce_while push_val push_op on_operator close_group
  on_close on_token finish evaluate_loop

end

theorem Tree.eval_bin_left {A : Arith V} {o : BinOp} {l : Tree} (h : l.eval A = none)
    (r : Tree) : (Tree.bin o l r).eval A = none := by
  rw [Tree.eval, h, Option.bind_none]

theorem Tree.eval_bin_right {A : Arith V} {o : BinOp} (l : Tree) {r : Tree}
    (h : r.eval A = none) : (Tree.bin o l r).eval A = none := by
  rw [Tree.eval, h]
  cases l.eval A with
  | none => rfl
  | some a => rfl

/-- An operator on the two trees on top. -/
theorem apply_top_leads (A : Arith V) (o : BinOp) {trees : List Tree} (h : Poisoned A trees) :
    Leads (Poisoned A) (apply_top symbolic o trees) := by
  match trees, h with
  | [], _ => trivial
  | [_], _ => trivial
  | b :: a :: trees, ⟨t, ht, hnone⟩ =>
      show Poisoned A (.bin o a b :: trees)
      rcases List.mem_cons.mp ht with rfl | ht
      · exact ⟨_, List.mem_cons_self, Tree.eval_bin_right a hnone⟩
      rcases List.mem_cons.mp ht with rfl | ht
      · exact ⟨_, List.mem_cons_self, Tree.eval_bin_left hnone b⟩
      · exact ⟨t, List.mem_cons_of_mem _ ht, hnone⟩

theorem apply_top_follows (A : Arith V) (o : BinOp) {trees : List Tree} {vals : List V}
    (h : Values A trees vals) :
    Follows (Values A) (Poisoned A) (apply_top symbolic o trees) (apply_top A o vals) := by
  match trees, h with
  | [], h =>
      rw [h.nil_left]
      rfl
  | [b], h =>
      obtain ⟨v, rest, rfl, -, hrest⟩ := h.uncons
      rw [hrest.nil_left]
      rfl
  | b :: a :: trees, h =>
      obtain ⟨vb, rest, rfl, hb, hrest⟩ := h.uncons
      obtain ⟨va, rest, rfl, ha, hrest⟩ := hrest.uncons
      have heval : (Tree.bin o a b).eval A = A.apply_math_op o va vb := by
        rw [Tree.eval, ha, Option.bind_some, hb, Option.bind_some]
      show Follows _ _ (.ok (.bin o a b :: trees)) ((or_fail _).map _)
      cases hres : A.apply_math_op o va vb with
      | none => exact Or.inr ⟨rfl, _, List.mem_cons_self, heval.trans hres⟩
      | some v => exact Follows.ok (Values.cons (heval.trans hres) hrest)

theorem reduce_while_leads (A : Arith V) (goes : BinOp → Bool) (ops : List Pending)
    {trees : List Tree} (h : Poisoned A trees) :
    Leads (fun r => Poisoned A r.2) (reduce_while symbolic goes ops trees) := by
  induction ops generalizing trees with
  | nil => exact h
  | cons o ops ih =>
      cases o with
      | op o =>
          rw [reduce_while]
          split
          · exact (apply_top_leads A o h).bind fun trees h => ih h
          · exact h
      | lparen => exact h
      | func name => exact h

theorem reduce_while_follows (A : Arith V) (goes : BinOp → Bool) (ops : List Pending)
    {trees : List Tree} {vals : List V} (h : Values A trees vals) :
    Follows (fun r r' => r'.1 = r.1 ∧ Values A r.2 r'.2) (fun r => Poisoned A r.2)
      (reduce_while symbolic goes ops trees) (reduce_while A goes ops vals) := by
  induction ops generalizing trees vals with
  | nil => exact Follows.ok ⟨rfl, h⟩
  | cons o ops ih =>
      cases o with
      | op o =>
          rw [reduce_while, reduce_while]
          split
          · exact (apply_top_follows A o h).bind (fun _ _ h => ih h)
              fun _ h => reduce_while_leads A goes ops h
          · exact Follows.ok ⟨rfl, h⟩
      | lparen => exact Follows.ok ⟨rfl, h⟩
      | func name => exact Follows.ok ⟨rfl, h⟩

/-! ## One turn of the loop -/

theorem push_val_leads (A : Arith V) (t : Tree) {st : State Tree}
    (h : StatePoisoned A st ∨ t.eval A = none) :
    Leads (StatePoisoned A) (push_val t st) := by
  unfold push_val
  split
  · obtain h | h := h
    · exact h.cons t
    · exact ⟨t, List.mem_cons_self, h⟩
  · trivial

theorem push_val_follows (A : Arith V) {t : Tree} {v : V} (ht : t.eval A = some v)
    {st : State Tree} {st' : State V} (h : StateValues A st st') :
    Follows (StateValues A) (StatePoisoned A) (push_val t st) (push_val v st') := by
  unfold push_val
  rw [h.1.length]
  split
  · exact Follows.ok ⟨Values.cons ht h.1, h.2.1, h.2.2⟩
  · trivial

theorem push_op_leads (A : Arith V) (o : Pending) {st : State Tree} (h : StatePoisoned A st) :
    Leads (StatePoisoned A) (push_op o st) := by
  unfold push_op
  split
  · exact h
  · trivial

theorem push_op_follows (A : Arith V) (o : Pending) {st : State Tree} {st' : State V}
    (h : StateValues A st st') :
    Follows (StateValues A) (StatePoisoned A) (push_op o st) (push_op o st') := by
  unfold push_op
  rw [h.2.1]
  split
  · exact Follows.ok ⟨h.1, rfl, h.2.2⟩
  · trivial

/-- The flag is no part of what is compared but its own value. -/
theorem map_expect_leads {A : Arith V} {p : Except Stop (State Tree)} (unary : Bool)
    (h : Leads (StatePoisoned A) p) :
    Leads (StatePoisoned A) (p.map fun st => { st with expect_unary := unary }) := by
  match p, h with
  | .error _, _ => trivial
  | .ok st, h => exact h

theorem map_expect_follows {A : Arith V} {p : Except Stop (State Tree)}
    {q : Except Stop (State V)} (unary : Bool)
    (h : Follows (StateValues A) (StatePoisoned A) p q) :
    Follows (StateValues A) (StatePoisoned A) (p.map fun st => { st with expect_unary := unary })
      (q.map fun st => { st with expect_unary := unary }) := by
  match p, h with
  | .error .overflow, _ => trivial
  | .error .failed, h =>
      obtain rfl : q = .error .failed := h
      rfl
  | .ok st, h =>
      obtain ⟨st', rfl, hst⟩ | ⟨rfl, hst⟩ := h
      · exact Follows.ok ⟨hst.1, hst.2.1, rfl⟩
      · exact Or.inr ⟨rfl, hst⟩

theorem on_operator_leads (A : Arith V) (o : BinOp) {st : State Tree}
    (h : StatePoisoned A st) : Leads (StatePoisoned A) (on_operator symbolic o st) :=
  (reduce_while_leads A _ _ h).bind fun _ hr => map_expect_leads true (push_op_leads A _ hr)

theorem on_operator_follows (A : Arith V) (o : BinOp) {st : State Tree} {st' : State V}
    (h : StateValues A st st') :
    Follows (StateValues A) (StatePoisoned A) (on_operator symbolic o st)
      (on_operator A o st') := by
  unfold on_operator
  rw [h.2.1]
  refine (reduce_while_follows A _ _ h.1).bind (fun r r' hr => ?_) fun r hr => ?_
  · exact map_expect_follows true (push_op_follows A _ ⟨hr.2, hr.1, h.2.2⟩)
  · exact map_expect_leads true (push_op_leads A _ hr)

theorem Tree.eval_func {A : Arith V} {name : List Char} {t : Tree} (h : t.eval A = none) :
    (Tree.func name t).eval A = none := by
  rw [Tree.eval, h, Option.bind_none]

theorem close_group_leads (A : Arith V) (ops : List Pending) {trees : List Tree}
    (h : Poisoned A trees) : Leads (StatePoisoned A) (close_group symbolic ops trees) := by
  match ops, trees, h with
  | [], _, h => exact h
  | .op _ :: _, _, h => exact h
  | .lparen :: _, _, h => exact h
  | .func _ :: _, [], _ => trivial
  | .func name :: _, t :: trees, ⟨u, hu, hnone⟩ =>
      show Poisoned A (.func name t :: trees)
      rcases List.mem_cons.mp hu with rfl | hu
      · exact ⟨_, List.mem_cons_self, Tree.eval_func hnone⟩
      · exact ⟨u, List.mem_cons_of_mem _ hu, hnone⟩

theorem close_group_follows (A : Arith V) (ops : List Pending) {trees : List Tree}
    {vals : List V} (h : Values A trees vals) :
    Follows (StateValues A) (StatePoisoned A) (close_group symbolic ops trees)
      (close_group A ops vals) := by
  match ops, trees, vals, h with
  | [], _, _, h => exact Follows.ok ⟨h, rfl, rfl⟩
  | .op _ :: _, _, _, h => exact Follows.ok ⟨h, rfl, rfl⟩
  | .lparen :: _, _, _, h => exact Follows.ok ⟨h, rfl, rfl⟩
  | .func name :: ops, [], vals, h =>
      rw [h.nil_left]
      rfl
  | .func name :: ops, t :: trees, vals, h =>
      obtain ⟨v, rest, rfl, ht, hrest⟩ := h.uncons
      have heval : (Tree.func name t).eval A = A.apply_func_op name v := by
        rw [Tree.eval, ht, Option.bind_some]
      show Follows _ _ (.ok _) ((or_fail _).map _)
      cases hres : A.apply_func_op name v with
      | none => exact Or.inr ⟨rfl, _, List.mem_cons_self, heval.trans hres⟩
      | some w => exact Follows.ok ⟨Values.cons (heval.trans hres) hrest, rfl, rfl⟩

theorem on_close_leads (A : Arith V) {st : State Tree} (h : StatePoisoned A st) :
    Leads (StatePoisoned A) (on_close symbolic st) :=
  (reduce_while_leads A _ _ h).bind fun r hr => close_group_leads A r.1 hr

theorem on_close_follows (A : Arith V) {st : State Tree} {st' : State V}
    (h : StateValues A st st') :
    Follows (StateValues A) (StatePoisoned A) (on_close symbolic st) (on_close A st') := by
  unfold on_close
  rw [h.2.1]
  refine (reduce_while_follows A _ _ h.1).bind (fun r r' hr => ?_) fun r hr =>
    close_group_leads A r.1 hr
  rw [hr.1]
  exact close_group_follows A r.1 hr.2

theorem on_token_leads (A : Arith V) (tok : Tok) {st : State Tree} (h : StatePoisoned A st) :
    Leads (StatePoisoned A) (on_token symbolic st tok) := by
  cases tok with
  | num n => exact map_expect_leads false (push_val_leads A _ (Or.inl h))
  | var name => exact map_expect_leads false (push_val_leads A _ (Or.inl h))
  | func name => exact map_expect_leads true (push_op_leads A _ h)
  | lparen => exact map_expect_leads true (push_op_leads A _ h)
  | rparen => exact on_close_leads A h
  | op o =>
      rw [on_token]
      split
      · exact h
      split
      · exact (push_val_leads A _ (Or.inl h)).bind fun _ h => on_operator_leads A _ h
      · exact on_operator_leads A o h

theorem on_token_follows (A : Arith V) (tok : Tok) {st : State Tree} {st' : State V}
    (h : StateValues A st st') :
    Follows (StateValues A) (StatePoisoned A) (on_token symbolic st tok) (on_token A st' tok) := by
  cases tok with
  | num n => exact map_expect_follows false (push_val_follows A rfl h)
  | var name =>
      show Follows _ _ ((push_val _ st).map _) ((or_fail (A.calc_get_var name)).bind _)
      cases hvar : A.calc_get_var name with
      | none => exact Follows.of_leads (map_expect_leads false (push_val_leads A _ (Or.inr hvar)))
      | some v =>
          exact map_expect_follows false (push_val_follows A (t := .var name) hvar h)
  | func name => exact map_expect_follows true (push_op_follows A _ h)
  | lparen => exact map_expect_follows true (push_op_follows A _ h)
  | rparen => exact on_close_follows A h
  | op o =>
      rw [on_token, on_token, h.2.2]
      split
      · exact Follows.ok h
      split
      · exact (push_val_follows A rfl h).bind (fun _ _ h => on_operator_follows A _ h)
          fun _ h => on_operator_leads A _ h
      · exact on_operator_follows A o h

/-! ## The whole input -/

theorem last_value_leads (A : Arith V) (ops : List Pending) {trees : List Tree}
    (h : Poisoned A trees) : Leads (fun t => t.eval A = none) (last_value ops trees) := by
  match ops, trees, h with
  | [], [t], ⟨u, hu, hnone⟩ =>
      rw [List.mem_singleton.mp hu] at hnone
      exact hnone
  | [], [], _ => trivial
  | [], _ :: _ :: _, _ => trivial
  | _ :: _, _, _ => trivial

theorem last_value_follows (A : Arith V) (ops : List Pending) {trees : List Tree} {vals : List V}
    (h : Values A trees vals) :
    Follows (fun t v => t.eval A = some v) (fun t => t.eval A = none) (last_value ops trees)
      (last_value ops vals) := by
  match ops, trees, vals, h with
  | [], [t], vals, h =>
      obtain ⟨v, rest, rfl, ht, hrest⟩ := h.uncons
      obtain rfl := hrest.nil_left
      exact Follows.ok ht
  | [], [], vals, h =>
      obtain rfl := h.nil_left
      rfl
  | [], _ :: _ :: _, vals, h =>
      obtain ⟨v, rest, rfl, -, hrest⟩ := h.uncons
      obtain ⟨w, rest, rfl, -, -⟩ := hrest.uncons
      rfl
  | _ :: _, _, _, _ => rfl

theorem finish_leads (A : Arith V) {st : State Tree} (h : StatePoisoned A st) :
    Leads (fun t => t.eval A = none) (finish symbolic st) :=
  (reduce_while_leads A _ _ h).bind fun r hr => last_value_leads A r.1 hr

theorem finish_follows (A : Arith V) {st : State Tree} {st' : State V}
    (h : StateValues A st st') :
    Follows (fun t v => t.eval A = some v) (fun t => t.eval A = none) (finish symbolic st)
      (finish A st') := by
  unfold finish
  rw [h.2.1]
  refine (reduce_while_follows A _ _ h.1).bind (fun r r' hr => ?_) fun r hr =>
    last_value_leads A r.1 hr
  rw [hr.1]
  exact last_value_follows A r.1 hr.2

theorem evaluate_loop_leads (A : Arith V) (step_guard : ℕ) (p : List Char) {st : State Tree}
    (h : StatePoisoned A st) :
    Leads (fun t => t.eval A = none) (evaluate_loop symbolic step_guard p st) := by
  induction step_guard generalizing p st with
  | zero => exact finish_leads A h
  | succ step_guard ih =>
      rw [evaluate_loop]
      split
      · exact finish_leads A h
      · next c q _ =>
          cases read_token (c :: q) with
          | none => trivial
          | some r => exact (on_token_leads A r.1 h).bind fun _ h => ih r.2 h

theorem evaluate_loop_follows (A : Arith V) (step_guard : ℕ) (p : List Char) {st : State Tree}
    {st' : State V} (h : StateValues A st st') :
    Follows (fun t v => t.eval A = some v) (fun t => t.eval A = none)
      (evaluate_loop symbolic step_guard p st) (evaluate_loop A step_guard p st') := by
  induction step_guard generalizing p st st' with
  | zero => exact finish_follows A h
  | succ step_guard ih =>
      rw [evaluate_loop, evaluate_loop]
      split
      · exact finish_follows A h
      · next c q _ =>
          cases read_token (c :: q) with
          | none => rfl
          | some r =>
              exact (on_token_follows A r.1 h).bind (fun _ _ h => ih r.2 h)
                fun _ h => evaluate_loop_leads A step_guard r.2 h

/-- **The evaluator returns the value of its tree.** Over any arithmetic, and on any input, what it
returns is the value of the tree that it returns over trees. -/
theorem evaluate_eq_eval (A : Arith V) (input_str : List Char) {t : Tree}
    (h : evaluate_expression_iterative symbolic input_str = .ok t) :
    evaluate_expression_iterative A input_str = or_fail (t.eval A) := by
  have hstart : StateValues A ⟨[], [], true⟩ ⟨[], [], true⟩ := ⟨rfl, rfl, rfl⟩
  have hfollows := evaluate_loop_follows A CALC_MAX_STEPS input_str hstart
  rw [evaluate_expression_iterative] at h
  rw [h] at hfollows
  obtain ⟨v, hv, ht⟩ | ⟨hv, ht⟩ := hfollows
  · rw [ht]
    exact hv
  · rw [ht]
    exact hv

end SysInC.Calc
