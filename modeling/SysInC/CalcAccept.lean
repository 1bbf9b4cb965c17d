/-
What the calculator accepts. Its loop looks at the depths of the two stacks and at the one value
that is left, not at the order of the tokens. A missing operand is found out by this, since there
are too few values; an operand too many is not when an operator behind it takes two, and a closing
bracket is never compared with the bracket that it closes.
-/
import SysInC.CalcGrammar
import SysInC.CalcRpn

set_option autoImplicit false

namespace SysInC.Calc

/-! ## How many values are left -/

/-- The values that an item adds. -/
def Item.weight : Item → ℤ
  | .op _ => -1
  | .func _ => 0
  | _ => 1

def weight : List Item → ℤ
  | [] => 0
  | i :: items => i.weight + weight items

/-- The operators that wait. -/
def operators : List Pending → ℤ
  | .op _ :: ops => operators ops + 1
  | _ :: ops => operators ops
  | [] => 0

/-- The brackets that are open. -/
def brackets : List Pending → ℕ
  | .op _ :: ops => brackets ops
  | _ :: ops => brackets ops + 1
  | [] => 0

theorem weight_cons (i : Item) (items : List Item) :
    weight (i :: items) = i.weight + weight items := rfl

theorem weight_append (items items' : List Item) :
    weight (items ++ items') = weight items + weight items' := by
  induction items with
  | nil => exact (zero_add _).symm
  | cons i items ih => rw [List.cons_append, weight_cons, weight_cons, ih, add_assoc]

/-- A tree leaves one value. -/
theorem weight_rpn (t : Tree) : weight t.rpn = 1 := by
  induction t with
  | zero => rfl
  | num n => rfl
  | var name => rfl
  | bin o l r ihl ihr => rw [Tree.rpn, weight_append, weight_append, ihl, ihr]; rfl
  | func name t ih => rw [Tree.rpn, weight_append, ih]; rfl

theorem leaving_counts (goes : BinOp → Bool) (ops : List Pending) :
    weight (leaving goes ops).1 + operators ops = operators (leaving goes ops).2 ∧
      brackets (leaving goes ops).2 = brackets ops := by
  have hstay : ∀ ops, weight ([] : List Item) + operators ops = operators ops :=
    fun _ => zero_add _
  induction ops with
  | nil => exact ⟨rfl, rfl⟩
  | cons p ops ih =>
      cases p with
      | op o =>
          rw [leaving]
          split
          · rw [weight_cons, Item.weight, operators, ← ih.1]
            exact ⟨by omega, ih.2⟩
          · exact ⟨hstay _, rfl⟩
      | lparen => exact ⟨hstay _, rfl⟩
      | func name => exact ⟨hstay _, rfl⟩

theorem closing_counts {ops : List Pending} (h : 0 < brackets ops) :
    weight (closing ops).1 + operators ops = operators (closing ops).2 ∧
      brackets ops = brackets (closing ops).2 + 1 := by
  induction ops with
  | nil => exact absurd h (lt_irrefl 0)
  | cons p ops ih =>
      cases p with
      | op o =>
          have hrest := ih h
          rw [closing, weight_cons, Item.weight, operators, ← hrest.1]
          exact ⟨by omega, hrest.2⟩
      | lparen => exact ⟨zero_add _, rfl⟩
      | func name => exact ⟨zero_add _, rfl⟩

theorem closing_all_counts {ops : List Pending} {items : List Item}
    (h : closing_all ops = some items) : weight items + operators ops = 0 ∧ brackets ops = 0 := by
  induction ops generalizing items with
  | nil =>
      obtain rfl := Option.some.inj h
      exact ⟨rfl, rfl⟩
  | cons p ops ih =>
      cases p with
      | op o =>
          obtain ⟨items, hrest, rfl⟩ := Option.map_eq_some_iff.mp h
          have hops := ih hrest
          rw [weight_cons, Item.weight, operators]
          exact ⟨by omega, hops.2⟩
      | lparen => exact nomatch h
      | func name => exact nomatch h

/-! ## Order and brackets -/

/-- An operand ends here. -/
def Tok.ends_operand : Tok → Bool
  | .num _ => true
  | .var _ => true
  | .rparen => true
  | _ => false

/-- An operand begins here. -/
def Tok.starts_operand : Tok → Bool
  | .num _ => true
  | .var _ => true
  | .func _ => true
  | .lparen => true
  | _ => false

/-- No operand, opening bracket or function stands directly behind an operand or a closing
bracket. With `ended`, an operand has ended in front of the first. -/
def Apart : Bool → List Lexeme → Prop
  | _, [] => True
  | ended, l :: ls => ¬ (ended = true ∧ l.1.starts_operand = true) ∧ Apart l.1.ends_operand ls

/-- Each closing bracket closes the last open one and is of its kind; those that stand in front are
to be closed. -/
def brackets_match : List Char → List Lexeme → Bool
  | _, [] => true
  | cs, (.lparen, o) :: ls => brackets_match (closer o :: cs) ls
  | cs, (.func _, _) :: ls => brackets_match (')' :: cs) ls
  | cs, (.rparen, c) :: ls => cs.head? == some c && brackets_match cs.tail ls
  | cs, _ :: ls => brackets_match cs ls

theorem expects_orders {s s' : Bool × List Char} {l : Lexeme} (h : expects s l = some s')
    (ls : List Lexeme) : ¬ ((!s.1) = true ∧ l.1.starts_operand = true) ∧
      (!s'.1) = l.1.ends_operand ∧ brackets_match s.2 (l :: ls) = brackets_match s'.2 ls := by
  unfold expects at h
  split at h
  · obtain rfl := Option.some.inj h
    exact ⟨nofun, rfl, rfl⟩
  · obtain rfl := Option.some.inj h
    exact ⟨nofun, rfl, rfl⟩
  · obtain rfl := Option.some.inj h
    exact ⟨nofun, rfl, rfl⟩
  · obtain rfl := Option.some.inj h
    exact ⟨nofun, rfl, rfl⟩
  · split at h
    · obtain rfl := Option.some.inj h
      exact ⟨nofun, rfl, rfl⟩
    · exact nomatch h
  · obtain rfl := Option.some.inj h
    exact ⟨nofun, rfl, rfl⟩
  · split at h
    · rename_i hc
      obtain rfl := Option.some.inj h
      refine ⟨nofun, rfl, ?_⟩
      show (some _ == some _ && _) = _
      rw [hc, beq_self_eq_true, Bool.true_and]
      rfl
    · exact nomatch h
  · exact nomatch h

theorem expects_regular {s s' : Bool × List Char} {ls : List Lexeme}
    (h : ls.foldlM expects s = some s') :
    Apart (!s.1) ls ∧ brackets_match s.2 ls = true := by
  induction ls generalizing s with
  | nil => exact ⟨trivial, rfl⟩
  | cons l ls ih =>
      obtain ⟨s₁, hl, hrest⟩ := Option.bind_eq_some_iff.mp h
      obtain ⟨hhead, hends, hmatch⟩ := expects_orders hl ls
      obtain ⟨hapart, hbrackets⟩ := ih hrest
      exact ⟨⟨hhead, hends ▸ hapart⟩, hmatch.trans hbrackets⟩

/-- The values that are left do not exceed one, and are one only behind an expression. `w` counts
those that the rest of the lexemes leaves, with the operators that wait. -/
structure Enough (s : Bool × List Char) (ls : List Lexeme) (w : ℤ) : Prop where
  le_one : w + (if s.1 = true then 0 else 1) ≤ 1
  expected : w + (if s.1 = true then 0 else 1) = 1 → ls.foldlM expects s = some (false, [])

theorem Enough.step {s s' : Bool × List Char} {l : Lexeme} {ls : List Lexeme} {w w' : ℤ}
    (h : Enough s' ls w') (hl : expects s l = some s')
    (hw : w + (if s.1 = true then 0 else 1) = w' + (if s'.1 = true then 0 else 1)) :
    Enough s (l :: ls) w := by
  refine ⟨hw ▸ h.le_one, fun hone => ?_⟩
  rw [List.foldlM_cons, hl]
  exact h.expected (hw ▸ hone)

/-- An operand is missing. -/
theorem Enough.missing {s : Bool × List Char} {ls : List Lexeme} {w : ℤ}
    (h : w + (if s.1 = true then 0 else 1) < 1) : Enough s ls w :=
  ⟨h.le, fun hone => absurd hone h.ne⟩

/-- What is expected behind an operand. Where one is missing in front of it, too few are left. -/
theorem Enough.behind_operand {e : Bool} {cs : List Char} {s' : Bool × List Char} {l : Lexeme}
    {ls : List Lexeme} {w w' : ℤ} (h : Enough s' ls w')
    (hl : e = false → expects (e, cs) l = some s')
    (hw : w + 1 = w' + (if s'.1 = true then 0 else 1)) : Enough (e, cs) (l :: ls) w := by
  cases e with
  | true =>
      apply Enough.missing
      have hle : w + 1 ≤ 1 := hw.trans_le h.le_one
      show w + 0 < 1
      omega
  | false => exact h.step (hl rfl) hw

theorem to_rpn_enough {ls : List Lexeme} {y : Yard} {cs : List Char} {items : List Item}
    (hitems : to_rpn y (tokens ls) = some items) (hapart : Apart (!y.expect_unary) ls)
    (hmatch : brackets_match cs ls = true) (hopen : brackets y.op_stack = cs.length) :
    Enough (y.expect_unary, cs) ls (weight items + operators y.op_stack) := by
  induction ls generalizing y cs items with
  | nil =>
      obtain ⟨hcount, hnone⟩ := closing_all_counts hitems
      rw [hcount]
      obtain rfl := List.eq_nil_of_length_eq_zero (hopen.symm.trans hnone)
      cases y.expect_unary with
      | true => exact Enough.missing (by decide)
      | false => exact ⟨by decide, fun _ => rfl⟩
  | cons l ls ih =>
      obtain ⟨rest, hrest, rfl⟩ := Option.map_eq_some_iff.mp hitems
      obtain ⟨tok, c⟩ := l
      obtain ⟨ops, e⟩ := y
      obtain ⟨hhead, htail⟩ := hapart
      have hexpects : tok.starts_operand = true → e = true := by
        intro hstarts
        cases e with
        | true => rfl
        | false => exact absurd ⟨rfl, hstarts⟩ hhead
      have hvalue : ∀ i : Item, i.weight = 1 →
          weight (i :: rest) + operators ops + 0 = weight rest + operators ops + 1 := by
        intro i hi
        rw [weight_cons, hi]
        omega
      cases tok with
      | num n =>
          obtain rfl := hexpects rfl
          exact (ih hrest htail hmatch hopen).step rfl (hvalue (.num n) rfl)
      | var name =>
          obtain rfl := hexpects rfl
          exact (ih hrest htail hmatch hopen).step rfl (hvalue (.var name) rfl)
      | func name =>
          obtain rfl := hexpects rfl
          exact (ih hrest htail hmatch (congrArg Nat.succ hopen)).step rfl rfl
      | lparen =>
          obtain rfl := hexpects rfl
          exact (ih hrest htail hmatch (congrArg Nat.succ hopen)).step rfl rfl
      | rparen =>
          rw [brackets_match, Bool.and_eq_true, beq_iff_eq] at hmatch
          obtain ⟨cs, rfl⟩ := List.head?_eq_some_iff.mp hmatch.1
          obtain ⟨hleft, hsame⟩ : weight (closing ops).1 + operators ops =
              operators (closing ops).2 ∧ brackets ops = brackets (closing ops).2 + 1 :=
            closing_counts (hopen.trans_gt (Nat.succ_pos cs.length))
          have hstep := ih hrest htail hmatch.2 (Nat.succ.inj (hsame.symm.trans hopen))
          refine hstep.behind_operand (fun he => he ▸ if_pos rfl) ?_
          rw [weight_append]
          show weight (closing ops).1 + weight rest + operators ops + 1 =
            weight rest + operators (closing ops).2 + 1
          omega
      | op o =>
          obtain ⟨hleft, hsame⟩ := leaving_counts (goes_first o) ops
          by_cases hplus : o = .plus ∧ e = true
          · obtain ⟨rfl, rfl⟩ := hplus
            exact (ih hrest htail hmatch hopen).step rfl rfl
          by_cases hminus : o = .minus ∧ e = true
          · obtain ⟨rfl, rfl⟩ := hminus
            refine (ih hrest htail hmatch (hsame.trans hopen)).step rfl ?_
            show weight (.zero :: (leaving (goes_first .minus) ops).1 ++ rest) + operators ops + 0 =
              weight rest + (operators (leaving (goes_first .minus) ops).2 + 1) + 0
            have hzero : Item.zero.weight = 1 := rfl
            rw [weight_append, weight_cons, hzero]
            omega
          -- the operator takes two operands
          · have hshunt : shunt ⟨ops, e⟩ (.op o) = ((leaving (goes_first o) ops).1,
                ⟨.op o :: (leaving (goes_first o) ops).2, true⟩) :=
              (if_neg hplus).trans (if_neg hminus)
            dsimp only at hrest ⊢
            rw [hshunt] at hrest ⊢
            have hstep := ih hrest htail hmatch (hsame.trans hopen)
            refine hstep.behind_operand (fun he => he ▸ rfl) ?_
            rw [weight_append]
            show weight (leaving (goes_first o) ops).1 + weight rest + operators ops + 1 =
              weight rest + (operators (leaving (goes_first o) ops).2 + 1) + 0
            omega

/-! ## Acceptance -/

def WellFormedText (input_str : List Char) : Prop :=
  ∃ ls, lexemes input_str = some ls ∧ WellFormed ls

/-- Operands stand apart and brackets match. -/
def Regular (input_str : List Char) : Prop :=
  ∃ ls, lexemes input_str = some ls ∧ Apart false ls ∧ brackets_match [] ls = true

/-- In the order in which they are applied, the tokens are the postfix notation of the tree. -/
def Denotes (input_str : List Char) (t : Tree) : Prop :=
  ∃ ls, lexemes input_str = some ls ∧ to_rpn ⟨[], true⟩ (tokens ls) = some t.rpn

theorem WellFormedText.regular {input_str : List Char} (h : WellFormedText input_str) :
    Regular input_str := by
  obtain ⟨ls, hls, hwell⟩ := h
  exact ⟨ls, hls, expects_regular (hwell.expected [])⟩

theorem Denotes.wellFormed {input_str : List Char} {t : Tree} (h : Denotes input_str t)
    (hregular : Regular input_str) : WellFormedText input_str := by
  obtain ⟨ls, hls, hrpn⟩ := h
  obtain ⟨ls', hls', hapart, hmatch⟩ := hregular
  obtain rfl := Option.some.inj (hls.symm.trans hls')
  have henough := to_rpn_enough hrpn hapart hmatch rfl
  refine ⟨ls, hls, wellFormed_iff.mpr (henough.expected ?_)⟩
  rw [weight_rpn]
  rfl

instance (input_str : List Char) : Decidable (WellFormedText input_str) :=
  decidable_of_iff (((lexemes input_str).bind (·.foldlM expects (true, []))) = some (false, []))
    (by
      rw [Option.bind_eq_some_iff]
      exact exists_congr fun ls => and_congr_right' wellFormed_iff.symm)

variable {V : Type}

theorem evaluate_symbolic_iff {input_str : List Char} (hlen : input_str.length < CALC_MAX_EXPR)
    (hfit : FitsStacks input_str) (t : Tree) :
    evaluate_expression_iterative symbolic input_str = .ok t ↔ Denotes input_str t := by
  obtain ⟨hsome, hnone⟩ := evaluate_loop_lexemes symbolic input_str.length le_rfl
    (hlen.le.trans (by decide : CALC_MAX_EXPR ≤ CALC_MAX_STEPS)) ⟨[], [], true⟩
  cases hls : lexemes input_str with
  | none =>
      refine iff_of_false (hnone hls t) ?_
      rintro ⟨ls, hls', -⟩
      exact nomatch hls.symm.trans hls'
  | some ls =>
      have hrun := hsome ls hls
      rw [FitsStacks, evaluate_expression_iterative, hrun] at hfit
      rw [evaluate_expression_iterative, hrun]
      refine (run_puts (tokens ls) ⟨[], true⟩ [] hfit t).trans ?_
      constructor
      · rintro ⟨items, hitems, hput⟩
        exact ⟨ls, hls, hitems.trans (congrArg some (puts_eq_iff.mp hput))⟩
      · rintro ⟨ls', hls', hrpn⟩
        obtain rfl := Option.some.inj (hls.symm.trans hls')
        exact ⟨t.rpn, hrpn, puts_eq_iff.mpr rfl⟩

theorem accepts_iff (A : Arith V) {input_str : List Char}
    (hlen : input_str.length < CALC_MAX_EXPR) (hfit : FitsStacks input_str) :
    (∃ v, evaluate_expression_iterative A input_str = .ok v) ↔
      ∃ t, Denotes input_str t ∧ (t.eval A).isSome = true := by
  have hstart : StateValues A ⟨[], [], true⟩ ⟨[], [], true⟩ := ⟨rfl, rfl, rfl⟩
  have hfollows := evaluate_loop_follows A CALC_MAX_STEPS input_str hstart
  have hdenotes := evaluate_symbolic_iff hlen hfit
  unfold FitsStacks at hfit
  unfold evaluate_expression_iterative at hdenotes hfit ⊢
  match hrun : evaluate_loop symbolic CALC_MAX_STEPS input_str ⟨[], [], true⟩ with
  | .error .overflow => exact absurd hrun hfit
  | .error .failed =>
      rw [hrun] at hfollows
      refine iff_of_false ?_ ?_
      · rintro ⟨v, hv⟩
        exact nomatch hv.symm.trans hfollows
      · rintro ⟨t, ht, -⟩
        exact nomatch hrun.symm.trans ((hdenotes t).mpr ht)
  | .ok t =>
      have heval : evaluate_loop A CALC_MAX_STEPS input_str ⟨[], [], true⟩ = or_fail (t.eval A) :=
        evaluate_eq_eval A input_str hrun
      rw [heval]
      constructor
      · rintro ⟨v, hv⟩
        refine ⟨t, (hdenotes t).mp hrun, ?_⟩
        cases hvalue : t.eval A with
        | none => exact nomatch (hvalue ▸ hv : or_fail none = .ok v)
        | some v => rfl
      · rintro ⟨u, hu, hvalue⟩
        obtain rfl : t = u := Except.ok.inj (hrun.symm.trans ((hdenotes u).mpr hu))
        obtain ⟨v, hv⟩ := Option.isSome_iff_exists.mp hvalue
        exact ⟨v, by rw [hv]; rfl⟩

end SysInC.Calc
