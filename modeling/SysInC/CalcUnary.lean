/-
What the evaluator makes of an expression. A minus sign is rewritten to the operator `-` behind a
zero, and the operator then binds as loosely as any `-`: it takes what stands in front of it in the
expression with it. `2*-3` is read as `(2*0)-3`.

`walk` is the evaluator on the stack of waiting operators, over trees. The tree that comes out is
the expression's own exactly when each minus sign stands in front of a whole term, and that term in
front of everything else in its brackets.
-/
import SysInC.CalcSyntax
import SysInC.CalcTrees
import SysInC.OperatorStack

set_option autoImplicit false

namespace SysInC.Calc

open SysInC.OperatorStack

/-- The parse tree. A sign has zero as its left operand. -/
def Syn.tree {l : Level} : Syn l → Tree
  | .num n => .num n.val
  | .group _ e => e.tree
  | .atom a => a.tree
  | .pow a f => .bin .pow a.tree f.tree
  | .power p => p.tree
  | .sign .plus f => f.tree
  | .sign .minus f => .bin .minus .zero f.tree
  | .factor f => f.tree
  | .mul o t f => .bin o.op t.tree f.tree
  | .term t => t.tree
  | .add o e t => .bin o.op e.tree t.tree

/-- There is no minus sign outside of brackets. -/
def Syn.NoMinus {l : Level} : Syn l → Prop
  | .num _ => True
  | .group _ _ => True
  | .atom a => a.NoMinus
  | .pow a f => a.NoMinus ∧ f.NoMinus
  | .power p => p.NoMinus
  | .sign .plus f => f.NoMinus
  | .sign .minus _ => False
  | .factor f => f.NoMinus
  | .mul _ t f => t.NoMinus ∧ f.NoMinus
  | .term t => t.NoMinus
  | .add _ e t => e.NoMinus ∧ t.NoMinus

/-- Every minus sign is the first thing in its brackets, but for plus signs, and no `*`, `/` or `%`
follows what it stands in front of. -/
def Syn.SignsLead {l : Level} : Syn l → Prop
  | .num _ => True
  | .group _ e => e.SignsLead
  | .atom a => a.SignsLead
  | .pow a f => a.SignsLead ∧ f.SignsLead ∧ f.NoMinus
  | .power p => p.SignsLead
  | .sign .plus f => f.SignsLead
  | .sign .minus f => f.SignsLead ∧ f.NoMinus
  | .factor f => f.SignsLead
  | .mul _ t f => t.SignsLead ∧ f.SignsLead ∧ t.NoMinus ∧ f.NoMinus
  | .term t => t.SignsLead
  | .add _ e t => e.SignsLead ∧ t.SignsLead ∧ t.NoMinus

/-! ## The evaluator on the waiting operators -/

abbrev Waiting := Spine BinOp Tree

def on_op (o : BinOp) (w : Waiting) (v : Tree) : Waiting := push Tree.bin (goes_first o) o w v

def Syn.walk {l : Level} : Syn l → Waiting → Waiting × Tree
  | .num n, w => (w, .num n.val)
  | .group _ e, w => (w, close Tree.bin (e.walk []).1 (e.walk []).2)
  | .atom a, w => a.walk w
  | .pow a f, w => f.walk (on_op .pow (a.walk w).1 (a.walk w).2)
  | .power p, w => p.walk w
  | .sign .plus f, w => f.walk w
  | .sign .minus f, w => f.walk (on_op .minus w .zero)
  | .factor f, w => f.walk w
  | .mul o t f, w => f.walk (on_op o.op (t.walk w).1 (t.walk w).2)
  | .term t, w => t.walk w
  | .add o e t, w => t.walk (on_op o.op (e.walk w).1 (e.walk w).2)

/-- The tree that comes out. -/
def Syn.shunted {l : Level} (e : Syn l) : Tree := close Tree.bin (e.walk []).1 (e.walk []).2

/-! ## Precedence -/

section

-- the equations of these are made here, and not by each proof anew
attribute [local simp] Syn.tree Syn.walk Syn.NoMinus Syn.SignsLead push close total

end

theorem add_goes_first (o : AddOp) {top : BinOp} :
    goes_first o.op top = decide (5 ≤ op_precedence top) := by
  cases o <;> cases top <;> rfl

theorem mul_goes_first (o : MulOp) {top : BinOp} :
    goes_first o.op top = decide (6 ≤ op_precedence top) := by
  cases o <;> cases top <;> rfl

theorem pow_goes_first (top : BinOp) : goes_first .pow top = false := by cases top <;> rfl

/-- Every operator that waits binds at least that tight. -/
def AtLeast (n : ℕ) (w : Waiting) : Prop := ∀ p ∈ w, n ≤ op_precedence p.1

theorem AtLeast.mono {m n : ℕ} {w : Waiting} (h : AtLeast n w) (hle : m ≤ n) : AtLeast m w :=
  fun p hp => hle.trans (h p hp)

theorem AtLeast.nil (n : ℕ) : AtLeast n [] := fun _ hp => absurd hp List.not_mem_nil

theorem AtLeast.cons {n : ℕ} {w : Waiting} (h : AtLeast n w) {o : BinOp}
    (ho : n ≤ op_precedence o) (v : Tree) : AtLeast n ((o, v) :: w) := by
  intro p hp
  rcases List.mem_cons.mp hp with rfl | hp
  · exact ho
  · exact h p hp

theorem AtLeast.append {n : ℕ} {upper lower : Waiting} (hupper : AtLeast n upper)
    (hlower : AtLeast n lower) : AtLeast n (upper ++ lower) :=
  fun p hp => (List.mem_append.mp hp).elim (hupper p) (hlower p)

theorem AtLeast.on_op {n : ℕ} {w : Waiting} (h : AtLeast n w) {o : BinOp}
    (ho : n ≤ op_precedence o) (v : Tree) : AtLeast n (on_op o w v) :=
  AtLeast.cons (fun p hp => h p (mem_collapse Tree.bin hp)) ho _

theorem add_precedence (o : AddOp) : op_precedence o.op = 5 := by cases o <;> rfl

theorem mul_precedence (o : MulOp) : op_precedence o.op = 6 := by cases o <;> rfl

/-- `+` and `-` take everything off. -/
theorem add_takes_all (o : AddOp) {w : Waiting} (h : AtLeast 5 w) (v : Tree) :
    on_op o.op w v = [(o.op, close Tree.bin w v)] :=
  push_all Tree.bin (fun p hp => by rw [add_goes_first, decide_eq_true (h p hp)]) o.op v

/-- `*`, `/` and `%` take what binds as tight as they do. -/
theorem mul_takes_upper (o : MulOp) {upper lower : Waiting} (hupper : AtLeast 6 upper)
    (hlower : ∀ p ∈ lower, op_precedence p.1 < 6) (v : Tree) :
    on_op o.op (upper ++ lower) v = (o.op, close Tree.bin upper v) :: lower := by
  refine push_append Tree.bin (fun p hp => ?_) (fun p hp => ?_) o.op v
  · rw [mul_goes_first, decide_eq_true (hupper p hp)]
  · rw [mul_goes_first, decide_eq_false (Nat.not_le_of_lt (hlower p hp))]

/-- `^` takes nothing. -/
theorem pow_takes_none (w : Waiting) (v : Tree) : on_op .pow w v = (.pow, v) :: w :=
  push_none Tree.bin (fun p _ => pow_goes_first p.1) .pow v

/-! ## Without a minus sign -/

theorem atom_walk (a : Syn .atom) (w : Waiting) : a.walk w = (w, (a.walk []).2) := by
  cases a with
  | num n => rfl
  | group b e => rfl

theorem atom_noMinus (a : Syn .atom) : a.NoMinus := by
  cases a with
  | num n => trivial
  | group b e => trivial

/-- How tight the operators of a level bind at least. -/
def lowest : Level → ℕ
  | .expr => 5
  | .term => 6
  | _ => 7

/-- An expression without a minus sign leaves alone what waits, if that binds less tight than its
own operators. -/
theorem walk_noMinus {l : Level} (e : Syn l) : l ≠ .expr → e.NoMinus →
    ∀ w : Waiting, (l = .term → ∀ p ∈ w, op_precedence p.1 < 6) →
      e.walk w = ((e.walk []).1 ++ w, (e.walk []).2) ∧ AtLeast (lowest l) (e.walk []).1 := by
  induction e with
  | num n => exact fun _ _ w _ => ⟨rfl, AtLeast.nil 7⟩
  | group b e => exact fun _ _ w _ => ⟨rfl, AtLeast.nil 7⟩
  | atom a ih =>
      intro _ hm w _
      exact ih Level.noConfusion hm w Level.noConfusion
  | pow a f _ ihf =>
      intro _ hm w _
      have hf (w : Waiting) := ihf Level.noConfusion hm.2 w Level.noConfusion
      have hwalk (w : Waiting) : (Syn.pow a f).walk w =
          ((f.walk []).1 ++ (.pow, (a.walk []).2) :: w, (f.walk []).2) := by
        rw [Syn.walk, atom_walk a w, pow_takes_none, (hf _).1]
      rw [hwalk w, hwalk []]
      refine ⟨by rw [List.append_assoc, List.singleton_append], ?_⟩
      exact (hf []).2.append ((AtLeast.nil 7).cons (o := .pow) (Nat.le_refl 7) _)
  | power p ih =>
      intro _ hm w _
      exact ih Level.noConfusion hm w Level.noConfusion
  | sign o f ih =>
      intro _ hm w _
      cases o with
      | plus => exact ih Level.noConfusion hm w Level.noConfusion
      | minus => exact absurd hm id
  | factor f ih =>
      intro _ hm w _
      have hf := ih Level.noConfusion hm w Level.noConfusion
      exact ⟨hf.1, hf.2.mono (by decide)⟩
  | mul o t f iht ihf =>
      intro _ hm w hw
      have hlow := hw rfl
      have ht := iht Level.noConfusion hm.1 w fun _ => hlow
      have hf (w : Waiting) := ihf Level.noConfusion hm.2 w Level.noConfusion
      have hwalk (w : Waiting) (hlow : ∀ p ∈ w, op_precedence p.1 < 6) :
          (Syn.mul o t f).walk w =
            ((f.walk []).1 ++ (o.op, close Tree.bin (t.walk []).1 (t.walk []).2) :: w,
              (f.walk []).2) := by
        rw [Syn.walk, (iht Level.noConfusion hm.1 w fun _ => hlow).1,
          mul_takes_upper o ht.2 hlow, (hf _).1]
      have hnil : ∀ p ∈ ([] : Waiting), op_precedence p.1 < 6 := fun _ hp =>
        absurd hp List.not_mem_nil
      rw [hwalk w hlow, hwalk [] hnil]
      refine ⟨by rw [List.append_assoc, List.singleton_append], ?_⟩
      exact ((hf []).2.mono (by decide)).append
        ((AtLeast.nil 6).cons (mul_precedence o).ge _)
  | term t _ => exact fun hl => absurd rfl hl
  | add o e t _ _ => exact fun hl => absurd rfl hl

/-- Whatever waits, nothing that binds less tight than `+` is added to it. -/
theorem walk_atLeast {l : Level} (e : Syn l) (w : Waiting) (hw : AtLeast 5 w) :
    AtLeast 5 (e.walk w).1 := by
  induction e generalizing w with
  | num n => exact hw
  | group b e _ => exact hw
  | atom a ih => exact ih w hw
  | pow a f iha ihf => exact ihf _ ((iha w hw).on_op (by decide) _)
  | power p ih => exact ih w hw
  | sign o f ih =>
      cases o with
      | plus => exact ih w hw
      | minus => exact ih _ (hw.on_op (by decide) _)
  | factor f ih => exact ih w hw
  | mul o t f iht ihf =>
      exact ihf _ ((iht w hw).on_op (by rw [mul_precedence]; decide) _)
  | term t ih => exact ih w hw
  | add o e t ihe iht => exact iht _ ((ihe w hw).on_op (add_precedence o).ge _)

/-! ## The zeros of the minus signs -/

def Tree.zeros : Tree → ℕ
  | .zero => 1
  | .num _ => 0
  | .var _ => 0
  | .bin _ l r => l.zeros + r.zeros
  | .func _ t => t.zeros

theorem zeros_bin (o : BinOp) (l r : Tree) : (Tree.bin o l r).zeros = l.zeros + r.zeros := rfl

/-- No zero is lost: there are as many as in the parse tree. -/
theorem walk_zeros {l : Level} (e : Syn l) (w : Waiting) :
    total Tree.zeros (e.walk w).1 (e.walk w).2 = total Tree.zeros w e.tree := by
  have hpush (o : BinOp) (w : Waiting) (v r : Tree) :
      total Tree.zeros (on_op o w v) r = total Tree.zeros w v + r.zeros :=
    total_push Tree.bin zeros_bin (goes_first o) o w v r
  induction e generalizing w with
  | num n => rfl
  | group b e ih =>
      rw [Syn.walk, Syn.tree, total, size_close Tree.bin zeros_bin, ih]
      simp only [total, List.map_nil, List.sum_nil, Nat.zero_add]
  | atom a ih => exact ih w
  | pow a f iha ihf =>
      rw [Syn.walk, Syn.tree, ihf, hpush, iha, total, total, zeros_bin, Nat.add_assoc]
  | power p ih => exact ih w
  | sign o f ih =>
      cases o with
      | plus => exact ih w
      | minus =>
          rw [Syn.walk, Syn.tree, ih, hpush, total, total, zeros_bin, Nat.add_assoc]
  | factor f ih => exact ih w
  | mul o t f iht ihf =>
      rw [Syn.walk, Syn.tree, ihf, hpush, iht, total, total, zeros_bin, Nat.add_assoc]
  | term t ih => exact ih w
  | add o e t ihe iht =>
      rw [Syn.walk, Syn.tree, iht, hpush, ihe, total, total, zeros_bin, Nat.add_assoc]

theorem shunted_zeros {l : Level} (e : Syn l) : e.shunted.zeros = e.tree.zeros := by
  rw [Syn.shunted, size_close Tree.bin zeros_bin, walk_zeros, total, List.map_nil,
    List.sum_nil, Nat.zero_add]

/-! ## With a minus sign -/

/-- A minus sign becomes the outermost operator, but for what waits below it, which it takes. Its
own zero does not stand on its right. -/
theorem walk_minus {l : Level} (e : Syn l) : l ≠ .expr → ¬e.NoMinus →
    ∀ w : Waiting, AtLeast 5 w → ∃ upper x v, e.walk w = (upper ++ [(.minus, x)], v) ∧
      AtLeast 6 upper ∧ (close Tree.bin upper v).zeros < e.tree.zeros := by
  induction e with
  | num n => exact fun _ hm => absurd trivial hm
  | group b e => exact fun _ hm => absurd trivial hm
  | atom a ih =>
      intro _ hm
      exact absurd (atom_noMinus a) hm
  | pow a f _ ihf =>
      intro _ hm w hw
      have hf : ¬f.NoMinus := fun hf => hm ⟨atom_noMinus a, hf⟩
      obtain ⟨upper, x, v, hwalk, hupper, hzeros⟩ := ihf Level.noConfusion hf
        (on_op .pow (a.walk w).1 (a.walk w).2) ((walk_atLeast a w hw).on_op (by decide) _)
      refine ⟨upper, x, v, hwalk, hupper, hzeros.trans_le ?_⟩
      exact Nat.le_add_left _ _
  | power p ih => exact fun _ => ih Level.noConfusion
  | sign o f ih =>
      intro _ hm w hw
      cases o with
      | plus => exact ih Level.noConfusion hm w hw
      | minus =>
          have hpush : on_op .minus w .zero = [(.minus, close Tree.bin w .zero)] :=
            add_takes_all .minus hw .zero
          have htree : (Syn.sign .minus f).tree.zeros = 1 + f.tree.zeros := rfl
          rw [htree, Syn.walk, hpush]
          by_cases hf : f.NoMinus
          · have hwalk := walk_noMinus f Level.noConfusion hf
              [(.minus, close Tree.bin w .zero)] Level.noConfusion
            refine ⟨(f.walk []).1, _, (f.walk []).2, hwalk.1, hwalk.2.mono (by decide), ?_⟩
            rw [show close Tree.bin (f.walk []).1 (f.walk []).2 = f.shunted from rfl,
              shunted_zeros]
            omega
          · obtain ⟨upper, x, v, hwalk, hupper, hzeros⟩ := ih Level.noConfusion hf
              [(.minus, close Tree.bin w .zero)] ((AtLeast.nil 5).cons (by decide) _)
            exact ⟨upper, x, v, hwalk, hupper, by omega⟩
  | factor f ih => exact fun _ => ih Level.noConfusion
  | mul o t f iht ihf =>
      intro _ hm w hw
      have htree : (Syn.mul o t f).tree.zeros = t.tree.zeros + f.tree.zeros := rfl
      rw [htree, Syn.walk]
      by_cases hf : f.NoMinus
      · -- the sign is in the left operand, and is behind what `o` takes
        have ht : ¬t.NoMinus := fun ht => hm ⟨ht, hf⟩
        obtain ⟨upper, x, v, hwalk, hupper, hzeros⟩ := iht Level.noConfusion ht w hw
        have hlow : ∀ p ∈ [(BinOp.minus, x)], op_precedence p.1 < 6 := by
          intro p hp
          rw [List.mem_singleton.mp hp]
          exact Nat.lt_succ_self 5
        have hright := walk_noMinus f Level.noConfusion hf
          ((o.op, close Tree.bin upper v) :: [(.minus, x)]) Level.noConfusion
        rw [hwalk, mul_takes_upper o hupper hlow, hright.1]
        refine ⟨(f.walk []).1 ++ [(o.op, close Tree.bin upper v)], x, (f.walk []).2, ?_, ?_, ?_⟩
        · rw [List.append_assoc, List.singleton_append]
        · exact (hright.2.mono (by decide)).append
            ((AtLeast.nil 6).cons (mul_precedence o).ge _)
        · rw [close_append, show close Tree.bin (f.walk []).1 (f.walk []).2 = f.shunted from rfl,
            close, close, zeros_bin, shunted_zeros]
          omega
      · obtain ⟨upper, x, v, hwalk, hupper, hzeros⟩ := ihf Level.noConfusion hf
          (on_op o.op (t.walk w).1 (t.walk w).2)
          ((walk_atLeast t w hw).on_op (by rw [mul_precedence]; decide) _)
        exact ⟨upper, x, v, hwalk, hupper, by omega⟩
  | term t _ => exact fun hl => absurd rfl hl
  | add o e t _ _ => exact fun hl => absurd rfl hl

/-- A tree whose outermost operator waits at the bottom of the stack. -/
theorem shunted_of_walk {l : Level} {e : Syn l} {upper : Waiting} {o : BinOp} {x v : Tree}
    (h : e.walk [] = (upper ++ [(o, x)], v)) :
    e.shunted = .bin o x (close Tree.bin upper v) := by
  rw [Syn.shunted, h, close_append, close, close]

/-- An operand without a minus sign behind an operator. -/
theorem close_walk {l : Level} {e : Syn l} (hl : l ≠ .expr) (hm : e.NoMinus) {o : BinOp}
    {x : Tree} (ho : l = .term → op_precedence o < 6) :
    close Tree.bin (e.walk [(o, x)]).1 (e.walk [(o, x)]).2 = .bin o x e.shunted := by
  have hwalk := walk_noMinus e hl hm [(o, x)] fun h p hp => by
    rw [List.mem_singleton.mp hp]
    exact ho h
  rw [hwalk.1, close_append, close, close, Syn.shunted]

theorem bin_eq_iff {o : BinOp} {l r l' r' : Tree} :
    Tree.bin o l r = .bin o l' r' ↔ l = l' ∧ r = r' := by
  rw [Tree.bin.injEq, and_iff_right rfl]

/-- **What the evaluator reads is the expression's own tree exactly when every minus sign
leads.** -/
theorem shunted_eq_iff {l : Level} (e : Syn l) : e.shunted = e.tree ↔ e.SignsLead := by
  induction e with
  | num n => exact iff_of_true rfl trivial
  | group b e ih => exact ih
  | atom a ih => exact ih
  | pow a f iha ihf =>
      by_cases hf : f.NoMinus
      · have hshunted : (Syn.pow a f).shunted = .bin .pow a.shunted f.shunted := by
          have hatom : a.shunted = (a.walk []).2 := by rw [Syn.shunted, atom_walk a []]; rfl
          rw [Syn.shunted, Syn.walk, atom_walk a [], pow_takes_none,
            close_walk Level.noConfusion hf Level.noConfusion, hatom]
        rw [hshunted, Syn.tree, bin_eq_iff, iha, ihf, Syn.SignsLead, and_iff_left hf]
      · obtain ⟨upper, x, v, hwalk, -⟩ := walk_minus (Syn.pow a f) Level.noConfusion
          (fun hm => hf hm.2) [] (AtLeast.nil 5)
        rw [shunted_of_walk hwalk]
        exact iff_of_false (fun h => nomatch (Tree.bin.inj h).1) fun h => hf h.2.2
  | power p ih => exact ih
  | sign o f ih =>
      cases o with
      | plus => exact ih
      | minus =>
          have hpush : on_op .minus [] .zero = [(.minus, .zero)] := rfl
          by_cases hf : f.NoMinus
          · rw [Syn.shunted, Syn.walk, hpush, close_walk Level.noConfusion hf Level.noConfusion,
              Syn.tree, bin_eq_iff, and_iff_right rfl, ih, Syn.SignsLead, and_iff_left hf]
          · obtain ⟨upper, x, v, hwalk, -, hzeros⟩ := walk_minus f Level.noConfusion hf
              [(.minus, .zero)] ((AtLeast.nil 5).cons (by decide) _)
            have hshunted := shunted_of_walk (e := Syn.sign .minus f) hwalk
            rw [hshunted, Syn.tree, bin_eq_iff]
            refine iff_of_false (fun h => ?_) fun h => hf h.2
            rw [h.2] at hzeros
            exact Nat.lt_irrefl _ hzeros
  | factor f ih => exact ih
  | mul o t f iht ihf =>
      by_cases hm : (Syn.mul o t f).NoMinus
      · have hnone : ∀ p ∈ ([] : Waiting), op_precedence p.1 < 6 := fun _ hp =>
          absurd hp List.not_mem_nil
        have hleft := walk_noMinus t Level.noConfusion hm.1 [] fun _ => hnone
        have hpush := mul_takes_upper o hleft.2 hnone (t.walk []).2
        rw [List.append_nil] at hpush
        rw [Syn.shunted, Syn.walk, hpush, close_walk Level.noConfusion hm.2 Level.noConfusion,
          Syn.tree, bin_eq_iff, ← Syn.shunted, iht, ihf, Syn.SignsLead]
        exact ⟨fun h => ⟨h.1, h.2, hm⟩, fun h => ⟨h.1, h.2.1⟩⟩
      · obtain ⟨upper, x, v, hwalk, -⟩ := walk_minus (Syn.mul o t f) Level.noConfusion hm []
          (AtLeast.nil 5)
        rw [shunted_of_walk hwalk]
        refine iff_of_false (fun h => ?_) fun h => hm h.2.2
        have ho := (Tree.bin.inj h).1
        cases o with
        | mul => exact nomatch ho
        | div => exact nomatch ho
        | mod => exact nomatch ho
  | term t ih => exact ih
  | add o e t ihe iht =>
      have hpush := add_takes_all o (walk_atLeast e [] (AtLeast.nil 5)) (e.walk []).2
      by_cases ht : t.NoMinus
      · rw [Syn.shunted, Syn.walk, hpush,
          close_walk Level.noConfusion ht fun _ => by rw [add_precedence]; decide,
          Syn.tree, bin_eq_iff, ← Syn.shunted, ihe, iht, Syn.SignsLead, and_iff_left ht]
      · obtain ⟨upper, x, v, hwalk, -, hzeros⟩ := walk_minus t Level.noConfusion ht
          [(o.op, close Tree.bin (e.walk []).1 (e.walk []).2)]
          ((AtLeast.nil 5).cons (add_precedence o).ge _)
        rw [← hpush] at hwalk
        have hshunted := shunted_of_walk (e := Syn.add o e t) hwalk
        rw [hshunted, Syn.tree]
        refine iff_of_false (fun h => ?_) fun h => ht h.2.2
        rw [(Tree.bin.inj h).2.2] at hzeros
        exact Nat.lt_irrefl _ hzeros

end SysInC.Calc
