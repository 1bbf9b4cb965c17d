/-
Integer expressions: what Python makes of them, and what C makes of the text that
`src/pythont/pythont.c` emits for them.

`py_eval` is the value in Python as long as no value on the way leaves 64 bits and no divisor
is zero. C gives the emitted text the same value, for it and for everything evaluated on the
way, exactly when the expression is `Faithful` (`int_expr_agrees_iff`): C divides towards
zero, gives `and` and `or` a truth value, and computes with constants in 32 bits.
-/
import SysInC.PythontLower
import Mathlib.Data.Int.Order.Lemmas
import Mathlib.Tactic.Linarith

set_option autoImplicit false

namespace SysInC.Pythont

/-! ## The expressions -/

/-- An integer literal of Python: digits, without a leading zero unless they are all zero. -/
def int_literal (text : String) : Prop :=
  text.toList ≠ [] ∧ (∀ c ∈ text.toList, c.isDigit = true)
    ∧ (text.toList.head? = some '0' → ∀ c ∈ text.toList, c = '0')

/-- A name of Python. -/
def int_name (text : String) : Prop :=
  c_plain_word text ∧ (text.toList.headD ' ').isDigit = false ∧ lexer_is_keyword text = false

def int_ops : List String :=
  ["+", "-", "*", "//", "%", "==", "!=", "<", "<=", ">", ">=", "and", "or"]

/-- Literals, variables and the integer operators. -/
inductive IntExpr : ast_expr → Prop where
  | number {text : String} (h : int_literal text) : IntExpr (.number text)
  | identifier {text : String} (h : int_name text) : IntExpr (.identifier text)
  | unary {op : String} {operand : ast_expr} (hop : op = "-" ∨ op = "not") (h : IntExpr operand) :
      IntExpr (.unary op operand)
  | binary {op : String} {left right : ast_expr} (hop : op ∈ int_ops) (hleft : IntExpr left)
      (hright : IntExpr right) : IntExpr (.binary op left right)

/-! ## Python -/

/-- A value on the way, where it does not leave 64 bits. -/
def int64 (v : ℤ) : Option ℤ := if c_type.long.Fits v then some v else none

def py_truth (b : Prop) [Decidable b] : ℤ := if b then 1 else 0

def py_arith (op : String) (a b : ℤ) : Option ℤ :=
  if op = "+" then int64 (a + b)
  else if op = "-" then int64 (a - b)
  else if op = "*" then int64 (a * b)
  else if op = "//" then if b = 0 then none else int64 (a.fdiv b)
  else if op = "%" then if b = 0 then none else int64 (a.fmod b)
  else if op = "==" then some (py_truth (a = b))
  else if op = "!=" then some (py_truth (a ≠ b))
  else if op = "<" then some (py_truth (a < b))
  else if op = "<=" then some (py_truth (a ≤ b))
  else if op = ">" then some (py_truth (b < a))
  else if op = ">=" then some (py_truth (b ≤ a))
  else none

def py_unary (op : String) (a : ℤ) : Option ℤ :=
  if op = "-" then int64 (-a) else if op = "not" then some (py_truth (a = 0)) else none

/-- The value in Python: floored division, and the operand that decides `and` and `or`. -/
def py_eval (env : String → ℤ) : ast_expr → Option ℤ
  | .number text => int64 (c_digits 10 text.toList)
  | .identifier text => int64 (env text)
  | .unary op operand => (py_eval env operand).bind (py_unary op)
  | .binary op left right =>
    (py_eval env left).bind fun a =>
      if op = "and" then if a = 0 then some a else py_eval env right
      else if op = "or" then if a ≠ 0 then some a else py_eval env right
      else (py_eval env right).bind (py_arith op a)
  | _ => none

/-! ## What C computes with -/

/-- The type of the emitted expression. -/
def c_type_of : ast_expr → c_type
  | .number text => if c_type.int.Fits (c_digits 10 text.toList) then .int else .long
  | .identifier _ => .long
  | .unary op operand => if op = "not" then .int else c_type_of operand
  | .binary op left right =>
    if op ∈ ["+", "-", "*", "%"] then (c_type_of left).common (c_type_of right)
    else if op = "//" then .long_long
    else .int
  | _ => .int

/-- `a` and `b` have signs for which both languages divide alike, or nothing is left over. -/
def divides_alike (a b : ℤ) : Prop := 0 ≤ a * b ∨ b ∣ a

/-- One operator on values of the type `t` does the same in C. -/
def SameArith (op : String) (t : c_type) (a b : ℤ) : Prop :=
  (op = "+" → t.Fits (a + b)) ∧ (op = "-" → t.Fits (a - b)) ∧ (op = "*" → t.Fits (a * b))
    ∧ (op = "//" → divides_alike a b)
    ∧ (op = "%" → divides_alike a b ∧ ¬(a = -t.bound ∧ b = -1))

/-- The value, where there is one. -/
def py_value (env : String → ℤ) (e : ast_expr) : ℤ := (py_eval env e).getD 0

/-- Is the right operand evaluated? -/
def evaluates_right (op : String) (a : ℤ) : Prop := (op = "and" → a ≠ 0) ∧ (op = "or" → a = 0)

/-- The condition under which C computes what Python does, on all that is evaluated: sums and
products of constants stay within 32 bits, quotients and remainders have no sign to differ in,
and `and` and `or` come out as 0 or 1. -/
def Faithful (env : String → ℤ) : ast_expr → Prop
  | .unary op operand =>
    Faithful env operand ∧ (op = "-" → (c_type_of operand).Fits (-py_value env operand))
  | .binary op left right =>
    Faithful env left ∧ (evaluates_right op (py_value env left) → Faithful env right)
      ∧ (op = "and" ∨ op = "or" → py_value env (.binary op left right) = 0
          ∨ py_value env (.binary op left right) = 1)
      ∧ SameArith op ((c_type_of left).common (c_type_of right)) (py_value env left)
          (py_value env right)
  | _ => True

/-- C gives the emitted text the value that Python gives the expression. -/
def Agrees (funs : String → List ℤ → Option ℤ) (env : String → ℤ) (e : ast_expr) : Prop :=
  (c_value funs (fun name => some (env name)) (expr_text e)).map Prod.snd = py_eval env e

/-- And so for all that is evaluated on the way. -/
def AgreesAll (funs : String → List ℤ → Option ℤ) (env : String → ℤ) : ast_expr → Prop
  | .unary op operand => AgreesAll funs env operand ∧ Agrees funs env (.unary op operand)
  | .binary op left right =>
    AgreesAll funs env left ∧ (evaluates_right op (py_value env left) → AgreesAll funs env right)
      ∧ Agrees funs env (.binary op left right)
  | e => Agrees funs env e

/-! ## Division -/

theorem tdiv_eq_fdiv_iff {a b : ℤ} (hb : b ≠ 0) : a.tdiv b = a.fdiv b ↔ divides_alike a b := by
  unfold divides_alike
  rw [Int.tdiv_eq_fdiv]
  by_cases hdvd : b ∣ a
  · simp [hdvd]
  · have ha : a ≠ 0 := fun h => hdvd (h ▸ dvd_zero b)
    have hsign : 0 ≤ a * b ↔ (0 ≤ a ↔ 0 ≤ b) := by
      rw [mul_nonneg_iff]
      omega
    by_cases hbb : 0 ≤ b
    · have hb1 : b.sign = 1 := Int.sign_eq_one_of_pos (by omega)
      by_cases hab : 0 ≤ a <;> simp [hdvd, hab, hbb, hsign, hb]
    · have hb1 : b.sign = -1 := Int.sign_eq_neg_one_of_neg (by omega)
      by_cases hab : 0 ≤ a <;> simp [hdvd, hab, hbb, hsign, hb1]

theorem tmod_eq_fmod_iff {a b : ℤ} (hb : b ≠ 0) : a.tmod b = a.fmod b ↔ divides_alike a b := by
  rw [← tdiv_eq_fdiv_iff hb]
  have h1 := Int.mul_tdiv_add_tmod a b
  have h2 := Int.mul_fdiv_add_fmod a b
  constructor
  · intro h
    have hmul : b * a.tdiv b = b * a.fdiv b := by linarith
    exact mul_left_cancel₀ hb hmul
  · intro h
    rw [h] at h1
    linarith

/-! ## The emitted expression -/

theorem int_literal.plain {text : String} (h : int_literal text) : c_plain_word text := by
  refine ⟨h.1, fun c hc => ?_⟩
  have hdigit := h.2.1 c hc
  simp [c_is_word, Char.isAlphanum, hdigit]

theorem int_literal.head_digit {text : String} (h : int_literal text) :
    (text.toList.headD ' ').isDigit = true := by
  obtain ⟨hne, hdigits, -⟩ := h
  cases hcs : text.toList with
  | nil => exact absurd hcs hne
  | cons c cs => exact hdigits c (by simp [hcs])

theorem lower_name_of_name {text : String} (h : int_name text) : lower_name text = .ident text := by
  have hkey := h.2.2
  unfold lower_name
  rw [if_neg, if_neg]
  · rintro (rfl | rfl) <;> exact absurd hkey (by decide)
  · rintro rfl
    exact absurd hkey (by decide)

theorem IntExpr.lowers {e : ast_expr} (h : IntExpr e) : e.lowers = true := by
  induction h with
  | number h => rfl
  | identifier h => rfl
  | unary hop h ih =>
    rw [ast_expr.lowers, ih]
    obtain rfl | rfl := hop <;> rfl
  | binary hop hleft hright ihl ihr => rw [ast_expr.lowers, ihl, ihr]; rfl

theorem lower_binary_plain {op : String} (hop : op ∈ int_ops) {left right : c_expr}
    (hleft : left.Plain) (hright : right.Plain) : (lower_binary op left right).Plain := by
  simp only [int_ops, List.mem_cons, List.not_mem_nil, or_false] at hop
  rcases hop with rfl | rfl | rfl | rfl | rfl | rfl | rfl | rfl | rfl | rfl | rfl | rfl | rfl
  case inr.inr.inr.inl => exact .binary (by decide) (.cast hleft) (.cast hright)
  all_goals exact .binary (by decide) hleft hright

theorem IntExpr.plain {e : ast_expr} (h : IntExpr e) : (lower_expr e).Plain := by
  induction h with
  | number h => exact .number h.plain h.head_digit
  | identifier h =>
    rw [lower_expr, lower_name_of_name h]
    exact .ident h.1 h.2.1
  | unary hop h ih =>
    apply c_expr.Plain.unary _ ih
    obtain rfl | rfl := hop <;> decide
  | binary hop hleft hright ihl ihr => exact lower_binary_plain hop ihl ihr

/-! ## One operator -/

/-- C's value `r` is `v` exactly under `cond`, and then it is of the type `t`. -/
structure Meets (r : Option (c_type × ℤ)) (t : c_type) (v : ℤ) (cond : Prop) : Prop where
  value : cond → r = some (t, v)
  fits : cond → t.Fits v
  needed : r.map Prod.snd = some v → cond

theorem int64_eq_some {v w : ℤ} : int64 v = some w ↔ c_type.long.Fits v ∧ v = w := by
  unfold int64
  split_ifs <;> simp_all

theorem py_truth_fits (b : Prop) [Decidable b] (t : c_type) : t.Fits (py_truth b) := by
  unfold py_truth
  cases t <;> simp only [c_type.Fits, c_type.bound] <;> split_ifs <;> omega

theorem Meets.result (t : c_type) (v : ℤ) : Meets (c_result t v) t v (t.Fits v) where
  value h := if_pos h
  fits h := h
  needed h := by
    by_contra hfit
    rw [c_result, if_neg hfit] at h
    simp at h

theorem Meets.truth (b : Prop) [Decidable b] : Meets (some (c_truth b)) .int (py_truth b) True where
  value _ := rfl
  fits _ := py_truth_fits b .int
  needed _ := trivial

theorem Meets.iff {r : Option (c_type × ℤ)} {t : c_type} {v : ℤ} {p q : Prop} (h : Meets r t v p)
    (hpq : p ↔ q) : Meets r t v q where
  value hq := h.value (hpq.mpr hq)
  fits hq := h.fits (hpq.mpr hq)
  needed hr := hpq.mp (h.needed hr)

/-- The value of `and` and `or` once the left operand did not decide. -/
theorem Meets.second (b : ℤ) : Meets (some (c_truth (b ≠ 0))) .int b (b = 0 ∨ b = 1) where
  value h := by obtain rfl | rfl := h <;> rfl
  fits h := by obtain rfl | rfl := h <;> decide
  needed h := by
    by_cases hb : b = 0
    · exact Or.inl hb
    · rw [c_truth, if_pos hb, Option.map_some, Option.some.injEq] at h
      exact Or.inr h.symm

theorem Meets.quotient {a b : ℤ} (hb : b ≠ 0) (hfit : c_type.long.Fits (a.fdiv b)) :
    Meets (c_arith "/" (.long_long, a) (.long_long, b)) .long_long (a.fdiv b)
      (divides_alike a b) := by
  have hr : c_arith "/" (.long_long, a) (.long_long, b) = c_result .long_long (a.tdiv b) := by
    simp [c_arith, hb, c_type.common]
  rw [hr]
  refine ⟨fun h => ?_, fun _ => hfit, fun h => ?_⟩
  · rw [(tdiv_eq_fdiv_iff hb).mpr h]
    exact if_pos hfit
  · apply (tdiv_eq_fdiv_iff hb).mp
    unfold c_result at h
    split_ifs at h
    · simpa using h
    · simp at h

/-- Only one quotient leaves the type of its operands. -/
theorem tdiv_fits_iff {t : c_type} {a b : ℤ} (ha : t.Fits a) (hb : b ≠ 0) :
    t.Fits (a.tdiv b) ↔ ¬(a = -t.bound ∧ b = -1) := by
  have hbound : 0 < t.bound := by cases t <;> decide
  constructor
  · rintro hfit ⟨rfl, rfl⟩
    rw [Int.tdiv_neg, Int.tdiv_one, neg_neg] at hfit
    exact lt_irrefl _ hfit.2
  · intro hne
    by_cases h1 : b = 1
    · rw [h1, Int.tdiv_one]
      exact ha
    · by_cases h2 : b = -1
      · rw [h2, Int.tdiv_neg, Int.tdiv_one]
        unfold c_type.Fits at ha ⊢
        omega
      · have habs : (a.tdiv b).natAbs = a.natAbs / b.natAbs := Int.natAbs_tdiv a b
        have hle : a.natAbs / b.natAbs ≤ a.natAbs / 2 := Nat.div_le_div_left (by omega) (by omega)
        unfold c_type.Fits at ha ⊢
        omega

theorem Meets.remainder {t t' : c_type} {a b : ℤ} (ha : (t.common t').Fits a)
    (hbt : (t.common t').Fits b) (hb : b ≠ 0) :
    Meets (c_arith "%" (t, a) (t', b)) (t.common t') (a.fmod b)
      (divides_alike a b ∧ ¬(a = -(t.common t').bound ∧ b = -1)) := by
  have hfit : (t.common t').Fits (a.tmod b) := by
    have habs : (a.tmod b).natAbs = a.natAbs % b.natAbs := Int.natAbs_tmod a b
    have hlt : a.natAbs % b.natAbs < b.natAbs := Nat.mod_lt _ (by omega)
    unfold c_type.Fits at hbt ⊢
    omega
  have hr : c_arith "%" (t, a) (t', b)
      = if (t.common t').Fits (a.tdiv b) then some (t.common t', a.tmod b) else none := by
    by_cases h : (t.common t').Fits (a.tdiv b) <;> simp [c_arith, c_result, hb, h, hfit]
  rw [hr, ← tmod_eq_fmod_iff hb, ← tdiv_fits_iff ha hb]
  refine ⟨fun h => ?_, fun h => h.1 ▸ hfit, fun h => ?_⟩
  · rw [if_pos h.2, h.1]
  · split_ifs at h with hdiv
    · exact ⟨by simpa using h, hdiv⟩
    · simp at h

theorem Fits.common_left {t t' : c_type} {v : ℤ} (h : t.Fits v) : (t.common t').Fits v := by
  cases t <;> cases t' <;> simp only [c_type.Fits, c_type.bound, c_type.common] at h ⊢ <;> omega

theorem Fits.common_right {t t' : c_type} {v : ℤ} (h : t'.Fits v) : (t.common t').Fits v := by
  cases t <;> cases t' <;> simp only [c_type.Fits, c_type.bound, c_type.common] at h ⊢ <;> omega

/-- A sum, a difference or a product: 64 bits are enough in Python. -/
theorem py_arith_result {op : String} {a b c v : ℤ} (hc : py_arith op a b = int64 c)
    (hv : py_arith op a b = some v) : c = v :=
  (int64_eq_some.mp (hc.symm.trans hv)).2

/-- An operator on operands that are both evaluated. -/
theorem Meets.arith {op : String} (hop : op ∈ int_ops) (hand : op ≠ "and") (hor : op ≠ "or")
    (hdiv : op ≠ "//") {tl tr : c_type} {a b v : ℤ} (ha : tl.Fits a) (hb : tr.Fits b)
    (hv : py_arith op a b = some v) :
    Meets (c_arith op (tl, a) (tr, b))
      (if op ∈ ["+", "-", "*", "%"] then tl.common tr else .int) v
      (SameArith op (tl.common tr) a b) := by
  simp only [int_ops, List.mem_cons, List.not_mem_nil, or_false] at hop
  -- the four that compute, then the comparisons; the rest is excluded
  rcases hop with rfl | rfl | rfl | rfl | rfl | rfl | rfl | rfl | rfl | rfl | rfl | rfl | rfl
  · obtain rfl := py_arith_result rfl hv
    exact (Meets.result (tl.common tr) (a + b)).iff (by simp [SameArith])
  · obtain rfl := py_arith_result rfl hv
    exact (Meets.result (tl.common tr) (a - b)).iff (by simp [SameArith])
  · obtain rfl := py_arith_result rfl hv
    exact (Meets.result (tl.common tr) (a * b)).iff (by simp [SameArith])
  · exact absurd rfl hdiv
  · by_cases hzero : b = 0
    · simp [py_arith, hzero] at hv
    · obtain rfl := py_arith_result (c := a.fmod b) (by simp [py_arith, hzero]) hv
      exact (Meets.remainder (Fits.common_left ha) (Fits.common_right hb) hzero).iff
        (by simp [SameArith])
  · obtain rfl := Option.some.inj hv
    exact (Meets.truth (a = b)).iff (by simp [SameArith])
  · obtain rfl := Option.some.inj hv
    exact (Meets.truth (a ≠ b)).iff (by simp [SameArith])
  · obtain rfl := Option.some.inj hv
    exact (Meets.truth (a < b)).iff (by simp [SameArith])
  · obtain rfl := Option.some.inj hv
    exact (Meets.truth (a ≤ b)).iff (by simp [SameArith])
  · obtain rfl := Option.some.inj hv
    exact (Meets.truth (b < a)).iff (by simp [SameArith])
  · obtain rfl := Option.some.inj hv
    exact (Meets.truth (b ≤ a)).iff (by simp [SameArith])
  · exact absurd rfl hand
  · exact absurd rfl hor

section

attribute [local simp] c_eval

variable {funs : String → List ℤ → Option ℤ} {env : String → Option ℤ} {left right : ast_expr}
  {a b v : ℤ}

/-- Arithmetic and comparisons. -/
theorem Meets.binary {op : String} (hop : op ∈ int_ops) (hand : op ≠ "and") (hor : op ≠ "or")
    (hl : c_eval funs env (lower_expr left) = some (c_type_of left, a))
    (hr : c_eval funs env (lower_expr right) = some (c_type_of right, b))
    (ha : (c_type_of left).Fits a) (hb : (c_type_of right).Fits b) (hv : py_arith op a b = some v) :
    Meets (c_eval funs env (lower_expr (.binary op left right)))
      (c_type_of (.binary op left right)) v
      (SameArith op ((c_type_of left).common (c_type_of right)) a b) := by
  by_cases hdiv : op = "//"
  · subst hdiv
    by_cases hzero : b = 0
    · simp [py_arith, hzero] at hv
    · have hint : int64 (a.fdiv b) = some v := by simpa [py_arith, hzero] using hv
      obtain ⟨hfit, rfl⟩ := int64_eq_some.mp hint
      have heval : c_eval funs env (lower_expr (.binary "//" left right))
          = c_arith "/" (.long_long, a) (.long_long, b) := by
        simp [lower_expr, lower_binary, c_eval, hl, hr]
      rw [heval]
      exact (Meets.quotient hzero hfit).iff (by simp [SameArith])
  -- any other operator is emitted as it is
  · have hkeep : lower_binary op (lower_expr left) (lower_expr right)
        = .binary op (lower_expr left) (lower_expr right) := by
      simp only [int_ops, List.mem_cons, List.not_mem_nil, or_false] at hop
      rcases hop with rfl | rfl | rfl | rfl | rfl | rfl | rfl | rfl | rfl | rfl | rfl | rfl | rfl
      case inr.inr.inr.inl => exact absurd rfl hdiv
      case inr.inr.inr.inr.inr.inr.inr.inr.inr.inr.inr.inl => exact absurd rfl hand
      case inr.inr.inr.inr.inr.inr.inr.inr.inr.inr.inr.inr => exact absurd rfl hor
      all_goals rfl
    have hshort : op ≠ "&&" ∧ op ≠ "||" := by
      constructor
      · rintro rfl
        exact absurd hop (by decide)
      · rintro rfl
        exact absurd hop (by decide)
    have heval : c_eval funs env (lower_expr (.binary op left right))
        = c_arith op (c_type_of left, a) (c_type_of right, b) := by
      rw [lower_expr, hkeep, c_eval, hl, Option.bind_some, if_neg hshort.1, if_neg hshort.2, hr,
        Option.bind_some]
    rw [heval, c_type_of, if_neg hdiv]
    exact Meets.arith hop hand hor hdiv ha hb hv

/-- The left operand decides. -/
theorem Meets.decided {op : String} (hop : op = "and" ∨ op = "or")
    (hl : c_eval funs env (lower_expr left) = some (c_type_of left, a))
    (ha : ¬evaluates_right op a) :
    Meets (c_eval funs env (lower_expr (.binary op left right)))
      (c_type_of (.binary op left right)) a (a = 0 ∨ a = 1) := by
  obtain rfl | rfl := hop
  · have hzero : a = 0 := by simpa [evaluates_right] using ha
    have heval : c_eval funs env (lower_expr (.binary "and" left right)) = some (.int, 0) := by
      simp [lower_expr, lower_binary, c_eval, hl, hzero]
    rw [heval, hzero]
    exact ⟨fun _ => rfl, fun _ => py_truth_fits False .int, fun _ => Or.inl rfl⟩
  · have hne : a ≠ 0 := by simpa [evaluates_right] using ha
    have heval : c_eval funs env (lower_expr (.binary "or" left right)) = some (.int, 1) := by
      simp [lower_expr, lower_binary, c_eval, hl, hne]
    rw [heval]
    refine ⟨fun h => ?_, fun h => ?_, fun h => Or.inr (Option.some.inj h).symm⟩
    · rw [h.resolve_left hne]; rfl
    · rw [h.resolve_left hne]; exact py_truth_fits True .int

/-- The right operand decides. -/
theorem Meets.undecided {op : String} (hop : op = "and" ∨ op = "or")
    (hl : c_eval funs env (lower_expr left) = some (c_type_of left, a))
    (hr : c_eval funs env (lower_expr right) = some (c_type_of right, b))
    (ha : evaluates_right op a) :
    Meets (c_eval funs env (lower_expr (.binary op left right)))
      (c_type_of (.binary op left right)) b (b = 0 ∨ b = 1) := by
  obtain rfl | rfl := hop
  · have hne : a ≠ 0 := ha.1 rfl
    have heval : c_eval funs env (lower_expr (.binary "and" left right))
        = some (c_truth (b ≠ 0)) := by
      simp [lower_expr, lower_binary, c_eval, hl, hr, hne]
    rw [heval]
    exact Meets.second b
  · have hzero : a = 0 := ha.2 rfl
    have heval : c_eval funs env (lower_expr (.binary "or" left right))
        = some (c_truth (b ≠ 0)) := by
      simp [lower_expr, lower_binary, c_eval, hl, hr, hzero]
    rw [heval]
    exact Meets.second b

theorem Meets.negate (hl : c_eval funs env (lower_expr left) = some (c_type_of left, a)) :
    Meets (c_eval funs env (lower_expr (.unary "-" left))) (c_type_of (.unary "-" left)) (-a)
      ((c_type_of left).Fits (-a)) := by
  have heval : c_eval funs env (lower_expr (.unary "-" left)) = c_result (c_type_of left) (-a) := by
    simp [lower_expr, c_eval, hl, c_negate]
  rw [heval]
  exact Meets.result (c_type_of left) (-a)

theorem Meets.not (hl : c_eval funs env (lower_expr left) = some (c_type_of left, a)) :
    Meets (c_eval funs env (lower_expr (.unary "not" left))) (c_type_of (.unary "not" left))
      (py_truth (a = 0)) True := by
  have heval : c_eval funs env (lower_expr (.unary "not" left)) = some (c_truth (a = 0)) := by
    simp [lower_expr, c_eval, hl, c_negate]
  rw [heval]
  exact Meets.truth (a = 0)

end

/-- A constant that C accepts. -/
theorem c_number_literal {text : String} (h : int_literal text) (hsome : (c_number text).isSome)
    (hfit : c_type.long.Fits (c_digits 10 text.toList)) :
    c_number text = some (c_type_of (.number text), c_digits 10 text.toList) := by
  by_cases hzero : text.toList.head? = some '0'
  · have hall : ∀ c ∈ text.toList, c = '0' := h.2.2 hzero
    -- only zeros may follow a leading zero, so the base does not matter
    have hv (base : ℤ) : c_digits base text.toList = 0 := by
      have hgen : ∀ cs : List Char, (∀ c ∈ cs, c = '0') →
          cs.foldl (fun v c => v * base + c_digit c) 0 = 0 := by
        intro cs
        induction cs with
        | nil => intro _; rfl
        | cons c cs ih =>
          intro hcs
          have hc : c = '0' := hcs c List.mem_cons_self
          have hstep : (0 : ℤ) * base + c_digit c = 0 := by rw [hc, zero_mul]; rfl
          rw [List.foldl_cons, hstep]
          exact ih fun c' hc' => hcs c' (List.mem_cons_of_mem _ hc')
      exact hgen _ hall
    have hint : c_type.int.Fits 0 := by decide
    unfold c_number at hsome ⊢
    simp only [hv, hint, if_true, c_type_of] at hsome ⊢
    split_ifs at hsome ⊢ with hbad
    · simp at hsome
    · rfl
  · unfold c_number at hsome ⊢
    simp only [hzero, if_false, false_and, or_false, c_type_of] at hsome ⊢
    split_ifs at hsome ⊢
    · simp at hsome
    · rfl
    · exact if_pos hfit

/-- What C reads in the emitted text. -/
theorem c_value_expr_text {e : ast_expr} (h : IntExpr e) (funs : String → List ℤ → Option ℤ)
    (env : String → Option ℤ) :
    c_value funs env (expr_text e)
      = if (lower_expr e).readable then c_eval funs env (lower_expr e) else none := by
  rw [c_value, expr_text_lower e h.lowers, c_parse_text h.plain]
  split_ifs <;> rfl

theorem agrees_iff {e : ast_expr} (h : IntExpr e) (hread : (lower_expr e).readable = true)
    {funs : String → List ℤ → Option ℤ} {env : String → ℤ} :
    Agrees funs env e ↔
      (c_eval funs (fun name => some (env name)) (lower_expr e)).map Prod.snd = py_eval env e := by
  rw [Agrees, c_value_expr_text h, if_pos hread]

theorem AgreesAll.agrees {funs : String → List ℤ → Option ℤ} {env : String → ℤ} {e : ast_expr}
    (h : AgreesAll funs env e) : Agrees funs env e := by
  cases e <;> first | exact h | exact h.2 | exact h.2.2

section

variable {funs : String → List ℤ → Option ℤ} {env : String → ℤ}

/-- The value of an expression that C accepts, and what it takes. -/
def Lowered (funs : String → List ℤ → Option ℤ) (env : String → ℤ) (e : ast_expr) : Prop :=
  (lower_expr e).readable = true → ∀ v, py_eval env e = some v →
    (Faithful env e → c_eval funs (fun name => some (env name)) (lower_expr e)
        = some (c_type_of e, v) ∧ (c_type_of e).Fits v)
      ∧ (AgreesAll funs env e → Faithful env e)

theorem Lowered.number {text : String} (h : int_literal text) :
    Lowered funs env (.number text) := by
  intro hread v hv
  obtain ⟨hfit, rfl⟩ := int64_eq_some.mp hv
  have hnum := c_number_literal h hread hfit
  refine ⟨fun _ => ⟨hnum, ?_⟩, fun _ => trivial⟩
  rw [c_type_of]
  split_ifs with hint
  · exact hint
  · exact hfit

theorem Lowered.identifier {text : String} (h : int_name text) :
    Lowered funs env (.identifier text) := by
  intro _ v hv
  obtain ⟨hfit, rfl⟩ := int64_eq_some.mp hv
  refine ⟨fun _ => ⟨?_, hfit⟩, fun _ => trivial⟩
  rw [lower_expr, lower_name_of_name h]
  rfl

/-- What one operator asks for is what `Faithful` does. -/
theorem Meets.lowered {e : ast_expr} {v : ℤ} {cond : Prop} (h : IntExpr e)
    (hread : (lower_expr e).readable = true) (hv : py_eval env e = some v)
    (hm : Meets (c_eval funs (fun name => some (env name)) (lower_expr e)) (c_type_of e) v cond) :
    (cond → c_eval funs (fun name => some (env name)) (lower_expr e) = some (c_type_of e, v)
        ∧ (c_type_of e).Fits v)
      ∧ (AgreesAll funs env e → cond) :=
  ⟨fun hc => ⟨hm.value hc, hm.fits hc⟩,
    fun hall => hm.needed (((agrees_iff h hread).mp hall.agrees).trans hv)⟩

theorem Lowered.unary {op : String} {operand : ast_expr} (hop : op = "-" ∨ op = "not")
    (h : IntExpr operand) (ih : Lowered funs env operand) :
    Lowered funs env (.unary op operand) := by
  intro hread v hv
  obtain ⟨a, ha, hva⟩ := Option.bind_eq_some_iff.mp hv
  have hvalue : py_value env operand = a := by rw [py_value, ha]; rfl
  obtain ⟨ihc, iha⟩ := ih hread a ha
  have hwhole := IntExpr.unary hop h
  obtain rfl | rfl := hop
  · obtain ⟨hfit, rfl⟩ := int64_eq_some.mp (by simpa [py_unary] using hva)
    have hstep (hf : Faithful env operand) :=
      (Meets.negate (ihc hf).1).lowered hwhole hread hv
    refine ⟨fun hf => (hstep hf.1).1 (hvalue ▸ hf.2 rfl), fun hall => ?_⟩
    have hf := iha hall.1
    exact ⟨hf, fun _ => hvalue.symm ▸ (hstep hf).2 hall⟩
  · obtain rfl : py_truth (a = 0) = v := by simpa [py_unary] using hva
    have hstep (hf : Faithful env operand) := (Meets.not (ihc hf).1).lowered hwhole hread hv
    refine ⟨fun hf => (hstep hf.1).1 trivial, fun hall => ⟨iha hall.1, ?_⟩⟩
    intro hcontra
    exact absurd hcontra (by decide)

theorem py_value_eq {e : ast_expr} {v : ℤ} (h : py_eval env e = some v) : py_value env e = v := by
  rw [py_value, h]; rfl

theorem same_arith_short {op : String} (hop : op = "and" ∨ op = "or") (t : c_type) (a b : ℤ) :
    SameArith op t a b := by
  obtain rfl | rfl := hop <;> simp [SameArith]

/-- `and` and `or` have the value of the operand that decides. -/
theorem py_eval_short {op : String} (hop : op = "and" ∨ op = "or") {left right : ast_expr}
    {a v : ℤ} (ha : py_eval env left = some a) (hv : py_eval env (.binary op left right) = some v) :
    (¬evaluates_right op a ∧ v = a) ∨ (evaluates_right op a ∧ py_eval env right = some v) := by
  obtain rfl | rfl := hop
  · by_cases hzero : a = 0
    · exact Or.inl ⟨by simp [evaluates_right, hzero], by simpa [py_eval, ha, hzero, eq_comm] using hv⟩
    · exact Or.inr ⟨by simp [evaluates_right, hzero], by simpa [py_eval, ha, hzero] using hv⟩
  · by_cases hzero : a = 0
    · exact Or.inr ⟨by simp [evaluates_right, hzero], by simpa [py_eval, ha, hzero] using hv⟩
    · exact Or.inl ⟨by simp [evaluates_right, hzero], by simpa [py_eval, ha, hzero, eq_comm] using hv⟩

theorem py_eval_both {op : String} (hand : op ≠ "and") (hor : op ≠ "or") {left right : ast_expr}
    {a v : ℤ} (ha : py_eval env left = some a) (hv : py_eval env (.binary op left right) = some v) :
    ∃ b, py_eval env right = some b ∧ py_arith op a b = some v := by
  rw [py_eval, ha, Option.bind_some, if_neg hand, if_neg hor] at hv
  exact Option.bind_eq_some_iff.mp hv

/-- The operands of an expression that C accepts. -/
theorem readable_binary {op : String} (hop : op ∈ int_ops) {left right : ast_expr}
    (h : (lower_expr (.binary op left right)).readable = true) :
    (lower_expr left).readable = true ∧ (lower_expr right).readable = true := by
  simp only [int_ops, List.mem_cons, List.not_mem_nil, or_false] at hop
  rcases hop with rfl | rfl | rfl | rfl | rfl | rfl | rfl | rfl | rfl | rfl | rfl | rfl | rfl
  all_goals exact Bool.and_eq_true_iff.mp h

theorem Lowered.short {op : String} (hop : op = "and" ∨ op = "or") {left right : ast_expr}
    (h : IntExpr (.binary op left right)) (hmem : op ∈ int_ops) (ihl : Lowered funs env left)
    (ihr : Lowered funs env right) : Lowered funs env (.binary op left right) := by
  intro hread v hv
  obtain ⟨hreadl, hreadr⟩ := readable_binary hmem hread
  obtain ⟨a, ha, -⟩ := Option.bind_eq_some_iff.mp hv
  have hsame := same_arith_short hop ((c_type_of left).common (c_type_of right)) (py_value env left)
    (py_value env right)
  obtain ⟨ihlc, ihla⟩ := ihl hreadl a ha
  have hwhole := py_value_eq hv
  obtain ⟨hright, rfl⟩ | ⟨hright, hb⟩ := py_eval_short hop ha hv
  · have hstep (hf : Faithful env left) :=
      (Meets.decided hop (ihlc hf).1 hright).lowered h hread hv
    have hnot : ¬evaluates_right op (py_value env left) := by rwa [py_value_eq ha]
    refine ⟨fun hf => (hstep hf.1).1 (hwhole ▸ hf.2.2.1 hop), fun hall => ?_⟩
    have hf := ihla hall.1
    exact ⟨hf, fun hev => absurd hev hnot, fun _ => hwhole.symm ▸ (hstep hf).2 hall, hsame⟩
  · obtain ⟨ihrc, ihra⟩ := ihr hreadr v hb
    have hev : evaluates_right op (py_value env left) := by rwa [py_value_eq ha]
    have hstep (hf : Faithful env left) (hg : Faithful env right) :=
      (Meets.undecided hop (ihlc hf).1 (ihrc hg).1 hright).lowered h hread hv
    refine ⟨fun hf => (hstep hf.1 (hf.2.1 hev)).1 (hwhole ▸ hf.2.2.1 hop), fun hall => ?_⟩
    have hf := ihla hall.1
    have hg := ihra (hall.2.1 hev)
    exact ⟨hf, fun _ => hg, fun _ => hwhole.symm ▸ (hstep hf hg).2 hall, hsame⟩

theorem Lowered.both {op : String} (hand : op ≠ "and") (hor : op ≠ "or") {left right : ast_expr}
    (h : IntExpr (.binary op left right)) (hmem : op ∈ int_ops) (ihl : Lowered funs env left)
    (ihr : Lowered funs env right) : Lowered funs env (.binary op left right) := by
  intro hread v hv
  obtain ⟨hreadl, hreadr⟩ := readable_binary hmem hread
  obtain ⟨a, ha, -⟩ := Option.bind_eq_some_iff.mp hv
  obtain ⟨b, hb, hval⟩ := py_eval_both hand hor ha hv
  obtain ⟨ihlc, ihla⟩ := ihl hreadl a ha
  obtain ⟨ihrc, ihra⟩ := ihr hreadr b hb
  have hev : evaluates_right op (py_value env left) :=
    ⟨fun hop => absurd hop hand, fun hop => absurd hop hor⟩
  have hstep (hf : Faithful env left) (hg : Faithful env right) :=
    (Meets.binary hmem hand hor (ihlc hf).1 (ihrc hg).1 (ihlc hf).2 (ihrc hg).2 hval).lowered h
      hread hv
  rw [← py_value_eq ha, ← py_value_eq hb] at hstep
  refine ⟨fun hf => (hstep hf.1 (hf.2.1 hev)).1 hf.2.2.2, fun hall => ?_⟩
  have hf := ihla hall.1
  have hg := ihra (hall.2.1 hev)
  exact ⟨hf, fun _ => hg, fun hop => absurd hop (by simp [hand, hor]), (hstep hf hg).2 hall⟩

theorem IntExpr.lowered {e : ast_expr} (h : IntExpr e) : Lowered funs env e := by
  induction h with
  | number h => exact Lowered.number h
  | identifier h => exact Lowered.identifier h
  | unary hop h ih => exact Lowered.unary hop h ih
  | @binary op left right hop hleft hright ihl ihr =>
    have hwhole := IntExpr.binary hop hleft hright
    by_cases hshort : op = "and" ∨ op = "or"
    · exact Lowered.short hshort hwhole hop ihl ihr
    · rw [not_or] at hshort
      exact Lowered.both hshort.1 hshort.2 hwhole hop ihl ihr

theorem Faithful.agrees {e : ast_expr} {v : ℤ} (hf : Faithful env e) (h : IntExpr e)
    (hread : (lower_expr e).readable = true) (hv : py_eval env e = some v) :
    Agrees funs env e := by
  rw [agrees_iff h hread, ((h.lowered hread v hv).1 hf).1, hv]
  rfl

theorem Faithful.agreesAll {e : ast_expr} (h : IntExpr e) :
    Faithful env e → (lower_expr e).readable = true → ∀ v, py_eval env e = some v →
      AgreesAll funs env e := by
  induction h with
  | number h => exact fun hf hread v hv => hf.agrees (.number h) hread hv
  | identifier h => exact fun hf hread v hv => hf.agrees (.identifier h) hread hv
  | unary hop h ih =>
    intro hf hread v hv
    obtain ⟨a, ha, -⟩ := Option.bind_eq_some_iff.mp hv
    exact ⟨ih hf.1 hread a ha, hf.agrees (.unary hop h) hread hv⟩
  | @binary op left right hop hleft hright ihl ihr =>
    intro hf hread v hv
    obtain ⟨hreadl, hreadr⟩ := readable_binary hop hread
    obtain ⟨a, ha, -⟩ := Option.bind_eq_some_iff.mp hv
    refine ⟨ihl hf.1 hreadl a ha, fun hev => ?_, hf.agrees (.binary hop hleft hright) hread hv⟩
    have hb : ∃ b, py_eval env right = some b := by
      by_cases hshort : op = "and" ∨ op = "or"
      · obtain ⟨hnot, -⟩ | ⟨-, hb⟩ := py_eval_short hshort ha hv
        · exact absurd (py_value_eq ha ▸ hev) hnot
        · exact ⟨v, hb⟩
      · rw [not_or] at hshort
        obtain ⟨b, hb, -⟩ := py_eval_both hshort.1 hshort.2 ha hv
        exact ⟨b, hb⟩
    obtain ⟨b, hb⟩ := hb
    exact ihr (hf.2.1 hev) hreadr b hb

/-- **Integer expressions.** An expression with a value in Python has the same one in C, and so
have all the parts that are evaluated, exactly when C accepts its constants and names and it is
`Faithful`. -/
theorem int_expr_agrees_iff {e : ast_expr} (h : IntExpr e) {v : ℤ} (hv : py_eval env e = some v) :
    ((lower_expr e).readable = true ∧ Faithful env e → Agrees funs env e)
      ∧ (AgreesAll funs env e ↔ (lower_expr e).readable = true ∧ Faithful env e) := by
  have hreadable (hagrees : Agrees funs env e) : (lower_expr e).readable = true := by
    by_contra hread
    rw [Agrees, c_value_expr_text h, if_neg hread, hv] at hagrees
    simp at hagrees
  refine ⟨fun ⟨hread, hf⟩ => hf.agrees h hread hv, fun hall => ?_, fun ⟨hread, hf⟩ => ?_⟩
  · have hread := hreadable hall.agrees
    exact ⟨hread, (h.lowered hread v hv).2 hall⟩
  · exact Faithful.agreesAll h hf hread v hv

end

theorem int_literal_digit {text : String} (h : text = "7" ∨ text = "2") : int_literal text := by
  have hdigits : "7".toList.all Char.isDigit = true ∧ "2".toList.all Char.isDigit = true := by decide
  obtain rfl | rfl := h
  · exact ⟨by decide, List.all_eq_true.mp hdigits.1, fun hzero => absurd hzero (by decide)⟩
  · exact ⟨by decide, List.all_eq_true.mp hdigits.2, fun hzero => absurd hzero (by decide)⟩

theorem int_name_a : int_name "a" := by
  have hword : "a".toList.all c_is_word = true := by decide
  exact ⟨⟨by decide, List.all_eq_true.mp hword⟩, by decide, by decide⟩

theorem int_expr_agrees_iff_halved :
    AgreesAll (fun _ _ => none) (fun _ => 7) (.binary "//" (.identifier "a") (.number "2"))
      ↔ (lower_expr (.binary "//" (.identifier "a") (.number "2"))).readable = true
        ∧ Faithful (fun _ => 7) (.binary "//" (.identifier "a") (.number "2")) :=
  (int_expr_agrees_iff (v := 3)
    (.binary (by decide) (.identifier int_name_a)
      (.number (int_literal_digit (Or.inr rfl)))) (by decide)).2

/-- `7 // -2` is -4 in Python, and -3 as the emitted `((long long)(7) / (long long)((-2)))`. -/
theorem quotient_towards_zero :
    ¬∀ (funs : String → List ℤ → Option ℤ) (env : String → ℤ) (e : ast_expr) (v : ℤ),
      IntExpr e → py_eval env e = some v → Agrees funs env e := by
  intro hall
  have h : IntExpr (.binary "//" (.number "7") (.unary "-" (.number "2"))) :=
    .binary (by decide) (.number (int_literal_digit (Or.inl rfl)))
      (.unary (Or.inl rfl) (.number (int_literal_digit (Or.inr rfl))))
  have hagrees := hall (fun _ _ => none) (fun _ => 0) _ (-4) h (by decide)
  rw [agrees_iff h (by decide)] at hagrees
  exact absurd hagrees (by decide)

end SysInC.Pythont
