/-
The grammar of infix expressions, and that the evaluator reads their texts token by token.

    expr   = term | expr (+|-) term
    term   = factor | term (*|/|%) factor
    factor = power | (+|-) factor
    power  = atom | atom ^ factor
    atom   = numeral | bracket expr bracket

So a sign binds tighter than `*` and less tight than `^`, and `^` associates to the right.
-/
import SysInC.Calc
import Mathlib.Data.List.TakeWhile

set_option autoImplicit false

namespace SysInC.Calc

/-! ## Numerals -/

def AllDigits (base : ℕ) (ds : List Char) : Prop := ∀ d ∈ ds, digit_of base d = true

/-- `12`, `1.5`, `.5`, `1.`, each with an exponent or without. -/
structure IsDecimal (int frac exp : List Char) : Prop where
  int_digits : AllDigits 10 int
  frac_digits : frac = [] ∨ ∃ ds, frac = '.' :: ds ∧ AllDigits 10 ds
  exp_digits : exp = [] ∨ ∃ c sign ds, exp = c :: (sign ++ ds) ∧ (c = 'e' ∨ c = 'E') ∧
    (sign = [] ∨ sign = ['+'] ∨ sign = ['-']) ∧ ds ≠ [] ∧ AllDigits 10 ds
  starts : starts_number (int ++ frac ++ exp) = true

/-- A decimal numeral, or a prefix and digits of its base. -/
def IsNumeral (n : List Char) : Prop :=
  (∃ int frac exp, n = int ++ frac ++ exp ∧ IsDecimal int frac exp) ∨
    ∃ c base ds, n = '0' :: c :: ds ∧ base_of c = some base ∧ ds ≠ [] ∧ AllDigits base ds

/-- Where a numeral may end: no letter, digit, underscore or dot follows. -/
def EndsNumeral (p : List Char) : Prop :=
  ∀ c, p.head? = some c → is_word c = false ∧ c ≠ '.'

theorem char_le_iff (a b : Char) : a ≤ b ↔ a.toNat ≤ b.toNat := Iff.rfl

theorem is_word_of_digit {base : ℕ} (hbase : base ≤ 10 ∨ base = 16) {c : Char}
    (h : digit_of base c = true) : is_word c = true := by
  simp only [digit_of, is_word, isalnum, isalpha, isdigit, char_le_iff] at *
  split at h
  · simp at h ⊢
    omega
  · simp at h ⊢
    omega

theorem not_space_of_word {c : Char} (h : is_word c = true) : isspace c = false := by
  rw [is_word, Bool.or_eq_true, beq_iff_eq] at h
  obtain h | rfl := h
  · by_contra hspace
    rw [Bool.not_eq_false, isspace, Bool.or_eq_true, beq_iff_eq] at hspace
    obtain rfl | hspace := hspace
    · exact absurd h (by decide)
    · simp only [isalnum, isalpha, isdigit, char_le_iff] at hspace h
      simp at hspace h
      omega
  · decide

theorem EndsNumeral.not_digit {p : List Char} (h : EndsNumeral p) {base : ℕ}
    (hbase : base ≤ 10 ∨ base = 16) (c : Char) (hc : p.head? = some c) :
    digit_of base c = false := by
  by_contra hd
  have hword := is_word_of_digit hbase ((Bool.not_eq_false _).mp hd)
  rw [(h c hc).1] at hword
  exact Bool.false_ne_true hword

/-- Digits, and something else behind them. -/
theorem count_digits_append {base : ℕ} {ds p : List Char} (hds : AllDigits base ds)
    (hp : ∀ c, p.head? = some c → digit_of base c = false) :
    count_digits base (ds ++ p) = ds.length := by
  rw [count_digits, List.takeWhile_append_of_pos hds]
  cases p with
  | nil => rw [List.takeWhile_nil, List.append_nil]
  | cons c p =>
      rw [List.takeWhile_cons_of_neg (by rw [hp c rfl]; exact Bool.false_ne_true),
        List.append_nil]

theorem strtod_end_eq (p : List Char) :
    strtod_end p = count_digits 10 p + frac_end (p.drop (count_digits 10 p)) +
      exp_end (p.drop (count_digits 10 p + frac_end (p.drop (count_digits 10 p)))) := rfl

theorem exp_end_append {exp p : List Char}
    (hexp : exp = [] ∨ ∃ c sign ds, exp = c :: (sign ++ ds) ∧ (c = 'e' ∨ c = 'E') ∧
      (sign = [] ∨ sign = ['+'] ∨ sign = ['-']) ∧ ds ≠ [] ∧ AllDigits 10 ds)
    (hp : EndsNumeral p) : exp_end (exp ++ p) = exp.length := by
  have hten : (10 : ℕ) ≤ 10 ∨ (10 : ℕ) = 16 := Or.inl (Nat.le_refl 10)
  obtain rfl | ⟨c, sign, ds, rfl, hc, hsign, hne, hds⟩ := hexp
  · -- what follows is not an `e`
    cases p with
    | nil => rfl
    | cons c p =>
        have hword := (hp c rfl).1
        refine if_neg fun hc => ?_
        obtain rfl | rfl := hc.1
        · exact absurd hword (by decide)
        · exact absurd hword (by decide)
  · have hcount := count_digits_append hds (hp.not_digit hten)
    have hpos : ds.length ≠ 0 := fun h => hne (List.eq_nil_of_length_eq_zero h)
    obtain ⟨d, ds', rfl⟩ := List.exists_cons_of_ne_nil hne
    rw [List.cons_append, List.append_assoc]
    -- behind the sign, if there is one, are the digits
    have hend : sign_end (sign ++ (d :: ds' ++ p)) = sign.length := by
      obtain rfl | rfl | rfl := hsign
      · have hd := hds d List.mem_cons_self
        rw [List.nil_append, List.cons_append, sign_end.eq_def]
        split
        · exact absurd hd (by rename_i heq; rw [(List.cons.inj heq).1]; decide)
        · exact absurd hd (by rename_i heq; rw [(List.cons.inj heq).1]; decide)
        · rfl
      · rfl
      · rfl
    rw [exp_end, hend, List.drop_left, hcount, if_pos ⟨hc, hpos⟩]
    simp only [List.length_cons, List.length_append]
    omega

theorem frac_end_append {frac rest : List Char}
    (hfrac : frac = [] ∨ ∃ ds, frac = '.' :: ds ∧ AllDigits 10 ds)
    (hrest : ∀ c, rest.head? = some c → digit_of 10 c = false ∧ c ≠ '.') :
    frac_end (frac ++ rest) = frac.length := by
  obtain rfl | ⟨ds, rfl, hds⟩ := hfrac
  · rw [List.nil_append, frac_end.eq_def]
    split
    · exact absurd rfl (hrest '.' rfl).2
    · rfl
  · rw [List.cons_append, frac_end, count_digits_append hds fun c hc => (hrest c hc).1,
      List.length_cons, Nat.add_comm]

/-- `strtod` reads a decimal numeral to its end. -/
theorem strtod_end_append {int frac exp p : List Char} (h : IsDecimal int frac exp)
    (hp : EndsNumeral p) :
    strtod_end (int ++ frac ++ exp ++ p) = (int ++ frac ++ exp).length := by
  have hten : (10 : ℕ) ≤ 10 ∨ (10 : ℕ) = 16 := Or.inl (Nat.le_refl 10)
  have hexp_head : ∀ c, (exp ++ p).head? = some c → digit_of 10 c = false ∧ c ≠ '.' := by
    intro c hc
    obtain rfl | ⟨e, sign, ds, rfl, he, -⟩ := h.exp_digits
    · exact ⟨hp.not_digit hten c hc, (hp c hc).2⟩
    · obtain rfl : e = c := Option.some.inj hc
      obtain rfl | rfl := he
      · decide
      · decide
  have hfrac_head : ∀ c, (frac ++ (exp ++ p)).head? = some c → digit_of 10 c = false := by
    intro c hc
    obtain rfl | ⟨ds, rfl, -⟩ := h.frac_digits
    · exact (hexp_head c hc).1
    · obtain rfl : '.' = c := Option.some.inj hc
      decide
  have hint : count_digits 10 (int ++ (frac ++ (exp ++ p))) = int.length :=
    count_digits_append h.int_digits hfrac_head
  rw [List.append_assoc, List.append_assoc, strtod_end_eq, hint, List.drop_left,
    frac_end_append h.frac_digits hexp_head, ← List.drop_drop, List.drop_left, List.drop_left,
    exp_end_append h.exp_digits hp, List.length_append, List.length_append]

theorem base_of_digit {c : Char} (h : digit_of 10 c = true) : base_of c = none := by
  unfold base_of
  rw [if_neg, if_neg, if_neg]
  all_goals
    rintro (rfl | rfl)
    · exact absurd h (by decide)
    · exact absurd h (by decide)

theorem base_of_not_word {c : Char} (h : is_word c = false) : base_of c = none := by
  unfold base_of
  rw [if_neg, if_neg, if_neg]
  all_goals
    rintro (rfl | rfl)
    · exact absurd h (by decide)
    · exact absurd h (by decide)

theorem base_of_some {c : Char} {base : ℕ} (h : base_of c = some base) :
    base ≤ 10 ∨ base = 16 := by
  unfold base_of at h
  split at h
  · exact Or.inr (Option.some.inj h).symm
  split at h
  · exact Or.inl (by rw [← Option.some.inj h]; decide)
  split at h
  · exact Or.inl (by rw [← Option.some.inj h]; decide)
  · exact nomatch h

/-- No character of a decimal numeral is the letter of a base. -/
theorem IsDecimal.base_of {int frac exp : List Char} (h : IsDecimal int frac exp) :
    ∀ c ∈ int ++ frac ++ exp, base_of c = none := by
  intro c hc
  rcases List.mem_append.mp hc with hc | hc
  · rcases List.mem_append.mp hc with hc | hc
    · exact base_of_digit (h.int_digits c hc)
    · obtain rfl | ⟨ds, rfl, hds⟩ := h.frac_digits
      · exact nomatch hc
      · rcases List.mem_cons.mp hc with rfl | hc
        · decide
        · exact base_of_digit (hds c hc)
  · obtain rfl | ⟨e, sign, ds, rfl, he, hsign, -, hds⟩ := h.exp_digits
    · exact nomatch hc
    · rcases List.mem_cons.mp hc with rfl | hc
      · obtain rfl | rfl := he
        · decide
        · decide
      rcases List.mem_append.mp hc with hc | hc
      · obtain rfl | rfl | rfl := hsign
        · exact nomatch hc
        · rw [List.mem_singleton.mp hc]
          decide
        · rw [List.mem_singleton.mp hc]
          decide
      · exact base_of_digit (hds c hc)

/-- The characters of a numeral and the first one behind it. -/
theorem second_char {n p : List Char} {P : Char → Prop} (hn : ∀ c ∈ n, P c)
    (hp : ∀ c, p.head? = some c → P c) {a c : Char} {q : List Char} (hne : n ≠ [])
    (h : n ++ p = a :: c :: q) : P c := by
  obtain ⟨d, n, rfl⟩ := List.exists_cons_of_ne_nil hne
  have htail : n ++ p = c :: q := (List.cons.inj h).2
  cases n with
  | nil =>
      rw [List.nil_append] at htail
      exact hp c (by rw [htail]; rfl)
  | cons e n =>
      obtain rfl := (List.cons.inj htail).1
      exact hn e (List.mem_cons_of_mem _ List.mem_cons_self)

theorem number_end_decimal {int frac exp p : List Char} (h : IsDecimal int frac exp)
    (hp : EndsNumeral p) :
    number_end (int ++ frac ++ exp ++ p) = (int ++ frac ++ exp).length := by
  have hne : int ++ frac ++ exp ≠ [] := by
    intro heq
    have hstarts := h.starts
    rw [heq] at hstarts
    exact Bool.false_ne_true hstarts
  rw [number_end.eq_def]
  split
  · next c q heq =>
      have hbase : base_of c = none := second_char h.base_of
        (fun d hd => base_of_not_word (hp d hd).1) hne heq
      rw [hbase]
      exact strtod_end_append h hp
  · exact strtod_end_append h hp

theorem strtoull_end_append {base : ℕ} (hbase : base ≤ 10 ∨ base = 16) {ds p : List Char}
    (hne : ds ≠ []) (hds : AllDigits base ds) (hp : EndsNumeral p) :
    strtoull_end base (ds ++ p) = ds.length := by
  have hcount := count_digits_append hds (hp.not_digit hbase)
  have hpos : ds.length ≠ 0 := fun h => hne (List.eq_nil_of_length_eq_zero h)
  have hmarker : marker_end base (ds ++ p) = 0 := by
    rw [marker_end.eq_def]
    split
    · next x d q heq =>
        refine if_neg fun hx => ?_
        -- a digit of base 16 is no `x`, nor is what follows the numeral
        have hx' : ¬(x = 'x' ∨ x = 'X') := by
          refine second_char (P := fun x => ¬(x = 'x' ∨ x = 'X')) (fun c hc => ?_)
            (fun c hc => ?_) hne heq
          · have hdigit := hds c hc
            rw [hx.1] at hdigit
            rintro (rfl | rfl)
            · exact absurd hdigit (by decide)
            · exact absurd hdigit (by decide)
          · have hword := (hp c hc).1
            rintro (rfl | rfl)
            · exact absurd hword (by decide)
            · exact absurd hword (by decide)
        exact hx' hx.2.1
    · rfl
  obtain ⟨d, ds', rfl⟩ := List.exists_cons_of_ne_nil hne
  have hword := is_word_of_digit hbase (hds d List.mem_cons_self)
  have hspace : (d :: ds' ++ p).takeWhile isspace = [] := by
    rw [List.cons_append, List.takeWhile_cons_of_neg]
    rw [not_space_of_word hword]
    exact Bool.false_ne_true
  have hsign : sign_end (d :: ds' ++ p) = 0 := by
    rw [List.cons_append, sign_end.eq_def]
    split
    · exact absurd hword (by rename_i heq; rw [(List.cons.inj heq).1]; decide)
    · exact absurd hword (by rename_i heq; rw [(List.cons.inj heq).1]; decide)
    · rfl
  rw [strtoull_end, hspace]
  simp only [List.length_nil, List.drop_zero, hsign, hmarker, hcount, Nat.add_zero,
    Nat.zero_add, if_neg hpos]

/-- **A numeral is read to its end.** -/
theorem number_end_append {n p : List Char} (h : IsNumeral n) (hp : EndsNumeral p) :
    number_end (n ++ p) = n.length := by
  obtain ⟨int, frac, exp, rfl, hdec⟩ | ⟨c, base, ds, rfl, hbase, hne, hds⟩ := h
  · exact number_end_decimal hdec hp
  · rw [List.cons_append, List.cons_append, number_end, hbase]
    dsimp only
    rw [strtoull_end_append (base_of_some hbase) hne hds hp]
    simp only [List.length_cons]
    omega

/-! ## Expressions -/

abbrev Numeral := { n : List Char // IsNumeral n }

inductive Bracket where
  | round | square | curly

def Bracket.opening : Bracket → Char
  | .round => '('
  | .square => '['
  | .curly => '{'

def Bracket.closing : Bracket → Char
  | .round => ')'
  | .square => ']'
  | .curly => '}'

/-- `+` and `-`, as operators and as signs. -/
inductive AddOp where
  | plus | minus

inductive MulOp where
  | mul | div | mod

def AddOp.op : AddOp → BinOp
  | .plus => .plus
  | .minus => .minus

def MulOp.op : MulOp → BinOp
  | .mul => .mul
  | .div => .div
  | .mod => .mod

def AddOp.char : AddOp → Char
  | .plus => '+'
  | .minus => '-'

def MulOp.char : MulOp → Char
  | .mul => '*'
  | .div => '/'
  | .mod => '%'

inductive Level where
  | atom | power | factor | term | expr

/-- The syntax trees of the grammar, level by level. -/
inductive Syn : Level → Type where
  | num (n : Numeral) : Syn .atom
  | group (b : Bracket) (e : Syn .expr) : Syn .atom
  | atom (a : Syn .atom) : Syn .power
  | pow (a : Syn .atom) (f : Syn .factor) : Syn .power
  | power (p : Syn .power) : Syn .factor
  | sign (o : AddOp) (f : Syn .factor) : Syn .factor
  | factor (f : Syn .factor) : Syn .term
  | mul (o : MulOp) (t : Syn .term) (f : Syn .factor) : Syn .term
  | term (t : Syn .term) : Syn .expr
  | add (o : AddOp) (e : Syn .expr) (t : Syn .term) : Syn .expr

/-- The tokens of an expression, each with its spelling. -/
def Syn.items {l : Level} : Syn l → List (Tok × List Char)
  | .num n => [(.num n.val, n.val)]
  | .group b e => (.lparen, [b.opening]) :: (e.items ++ [(.rparen, [b.closing])])
  | .atom a => a.items
  | .pow a f => a.items ++ (.op .pow, ['^']) :: f.items
  | .power p => p.items
  | .sign o f => (.op o.op, [o.char]) :: f.items
  | .factor f => f.items
  | .mul o t f => t.items ++ (.op o.op, [o.char]) :: f.items
  | .term t => t.items
  | .add o e t => e.items ++ (.op o.op, [o.char]) :: t.items

def Syn.tokens {l : Level} (e : Syn l) : List Tok := e.items.map Prod.fst

/-- The items one behind the other, with any blanks between them. -/
inductive Spelled : List (Tok × List Char) → List Char → Prop where
  | done (blanks : List Char) (h : ∀ c ∈ blanks, is_blank c = true) : Spelled [] blanks
  | item (blanks : List Char) (h : ∀ c ∈ blanks, is_blank c = true) (i : Tok × List Char)
      {rest : List (Tok × List Char)} {s : List Char} (hs : Spelled rest s) :
      Spelled (i :: rest) (blanks ++ (i.2 ++ s))

/-- An item that may follow a numeral. -/
def FollowsNumeral (i : Tok × List Char) : Prop :=
  ∃ c, i.2 = [c] ∧ is_word c = false ∧ c ≠ '.'

/-- An item with its own spelling: a numeral, or one character that is read as its token. -/
def Readable (i : Tok × List Char) : Prop :=
  (∃ n : Numeral, i = (.num n.val, n.val)) ∨
    ∃ c, i.2 = [c] ∧ is_blank c = false ∧ ∀ s, read_token (c :: s) = some (i.1, s)

/-- Every item can be read, and what stands behind a numeral may stand there. -/
def Separated : List (Tok × List Char) → Prop
  | [] => True
  | i :: rest => Readable i ∧ ((∃ n, i.1 = .num n) → ∀ j, rest.head? = some j → FollowsNumeral j) ∧
      Separated rest

theorem add_readable (o : AddOp) : Readable (.op o.op, [o.char]) :=
  Or.inr ⟨o.char, rfl, by cases o <;> decide, fun s => by cases o <;> rfl⟩

theorem mul_readable (o : MulOp) : Readable (.op o.op, [o.char]) :=
  Or.inr ⟨o.char, rfl, by cases o <;> decide, fun s => by cases o <;> rfl⟩

theorem add_follows (o : AddOp) : FollowsNumeral (.op o.op, [o.char]) :=
  ⟨o.char, rfl, by cases o <;> decide⟩

theorem mul_follows (o : MulOp) : FollowsNumeral (.op o.op, [o.char]) :=
  ⟨o.char, rfl, by cases o <;> decide⟩

/-- An item that is no numeral in front. -/
theorem separated_cons {i : Tok × List Char} {tail : List (Tok × List Char)} (h : Readable i)
    (hi : ∀ n, i.1 ≠ .num n) (htail : Separated tail) : Separated (i :: tail) :=
  ⟨h, fun ⟨n, hn⟩ => absurd hn (hi n), htail⟩

theorem bracket_opens (b : Bracket) : Readable (.lparen, [b.opening]) :=
  Or.inr ⟨b.opening, rfl, by cases b <;> decide, fun s => by cases b <;> rfl⟩

theorem bracket_closes (b : Bracket) : Readable (.rparen, [b.closing]) :=
  Or.inr ⟨b.closing, rfl, by cases b <;> decide, fun s => by cases b <;> rfl⟩

/-- The items of an expression in front of items that may follow a numeral. -/
theorem Syn.separated {l : Level} (e : Syn l) {tail : List (Tok × List Char)}
    (htail : Separated tail) (hhead : ∀ j, tail.head? = some j → FollowsNumeral j) :
    Separated (e.items ++ tail) := by
  induction e generalizing tail with
  | num n => exact ⟨Or.inl ⟨n, rfl⟩, fun _ => hhead, htail⟩
  | group b e ih =>
      rw [Syn.items, List.cons_append, List.append_assoc]
      refine separated_cons (bracket_opens b) (fun _ => Tok.noConfusion) (ih ?_ fun j hj => ?_)
      · exact separated_cons (bracket_closes b) (fun _ => Tok.noConfusion) htail
      obtain rfl := Option.some.inj hj
      exact ⟨b.closing, rfl, by cases b <;> decide⟩
  | atom a ih => exact ih htail hhead
  | pow a f iha ihf =>
      rw [Syn.items, List.append_assoc]
      refine iha (separated_cons ?_ (fun _ => Tok.noConfusion) (ihf htail hhead)) fun j hj => ?_
      · exact Or.inr ⟨'^', rfl, by decide, fun s => rfl⟩
      · obtain rfl := Option.some.inj hj
        exact ⟨'^', rfl, by decide⟩
  | power p ih => exact ih htail hhead
  | sign o f ih => exact
      separated_cons (add_readable o) (fun _ => Tok.noConfusion) (ih htail hhead)
  | factor f ih => exact ih htail hhead
  | mul o t f iht ihf =>
      rw [Syn.items, List.append_assoc]
      refine iht (separated_cons (mul_readable o) (fun _ => Tok.noConfusion)
        (ihf htail hhead)) fun j hj => ?_
      obtain rfl := Option.some.inj hj
      exact mul_follows o
  | term t ih => exact ih htail hhead
  | add o e t ihe iht =>
      rw [Syn.items, List.append_assoc]
      refine ihe (separated_cons (add_readable o) (fun _ => Tok.noConfusion)
        (iht htail hhead)) fun j hj => ?_
      obtain rfl := Option.some.inj hj
      exact add_follows o

/-! ## Reading the text of an expression -/

theorem starts_number_append {n p : List Char} (h : IsNumeral n) :
    starts_number (n ++ p) = true := by
  obtain ⟨int, frac, exp, rfl, hdec⟩ | ⟨c, base, ds, rfl, -⟩ := h
  · have hstarts := hdec.starts
    generalize int ++ frac ++ exp = n at hstarts
    match n, hstarts with
    | c :: [], hstarts =>
        have hdigit : isdigit c = true := by simpa [starts_number] using hstarts
        rw [List.cons_append, starts_number, hdigit, Bool.true_or]
    | c :: d :: n, hstarts => exact hstarts
  · rfl

theorem blank_of_is_blank {c : Char} (h : is_blank c = true) : is_word c = false ∧ c ≠ '.' := by
  rw [is_blank, Bool.or_eq_true, beq_iff_eq, beq_iff_eq] at h
  obtain rfl | rfl := h
  · decide
  · decide

theorem head_of_blanks {blanks s : List Char} (h : ∀ c ∈ blanks, is_blank c = true) {c : Char}
    (hc : (blanks ++ s).head? = some c) : is_blank c = true ∨ s.head? = some c := by
  cases blanks with
  | nil => exact Or.inr hc
  | cons b blanks =>
      obtain rfl := Option.some.inj hc
      exact Or.inl (h b List.mem_cons_self)

/-- Behind a numeral stands nothing that would go on with it. -/
theorem Spelled.ends_numeral {items : List (Tok × List Char)} {s : List Char}
    (h : Spelled items s) (hhead : ∀ j, items.head? = some j → FollowsNumeral j) :
    EndsNumeral s := by
  intro c hc
  cases h with
  | done _ hblanks =>
      exact blank_of_is_blank (hblanks c (List.mem_of_mem_head? hc))
  | item blanks hblanks i hs =>
      obtain hblank | hc := head_of_blanks hblanks hc
      · exact blank_of_is_blank hblank
      · obtain ⟨d, hd, hword⟩ := hhead i rfl
        rw [hd] at hc
        obtain rfl := Option.some.inj hc
        exact hword

/-- The token that an item is read as. -/
theorem read_item {i : Tok × List Char} (h : Readable i) {s : List Char}
    (hs : (∃ n, i.1 = .num n) → EndsNumeral s) :
    ∃ c q, i.2 ++ s = c :: q ∧ is_blank c = false ∧ read_token (c :: q) = some (i.1, s) := by
  obtain ⟨n, rfl⟩ | ⟨c, hc, hblank, hread⟩ := h
  · have hstarts := starts_number_append (p := s) n.property
    have hend := number_end_append n.property (hs ⟨n.val, rfl⟩)
    dsimp only
    generalize hp : n.val ++ s = p at hstarts hend
    match p, hstarts with
    | c :: q, hstarts =>
        refine ⟨c, q, rfl, ?_, ?_⟩
        · by_contra hblank
          rw [Bool.not_eq_false, is_blank, Bool.or_eq_true, beq_iff_eq, beq_iff_eq] at hblank
          obtain rfl | rfl := hblank
          · exact absurd hstarts (by simp [starts_number, isdigit])
          · exact absurd hstarts (by simp [starts_number, isdigit])
        · rw [read_token, if_pos hstarts, hend, ← hp, List.take_left, List.drop_left]
  · rw [hc]
    exact ⟨c, s, rfl, hblank, hread s⟩

/-- **The loop reads an expression's tokens.** -/
theorem evaluate_loop_items {V : Type} (A : Arith V) {items : List (Tok × List Char)}
    {s : List Char} (hspell : Spelled items s) (hsep : Separated items) {step_guard : ℕ}
    (hguard : items.length ≤ step_guard) (st : State V) :
    evaluate_loop A step_guard s st =
      ((items.map Prod.fst).foldlM (on_token A) st).bind (finish A) := by
  induction hspell generalizing step_guard st with
  | done blanks hblanks =>
      have hdrop : blanks.dropWhile is_blank = [] :=
        List.dropWhile_eq_nil_iff.mpr hblanks
      cases step_guard with
      | zero => rfl
      | succ step_guard =>
          rw [evaluate_loop, hdrop]
          rfl
  | item blanks hblanks i hs ih =>
      obtain ⟨hread, hnext, hrest⟩ := hsep
      obtain ⟨g, rfl⟩ : ∃ g, step_guard = g + 1 :=
        ⟨step_guard - 1, by rw [List.length_cons] at hguard; omega⟩
      obtain ⟨c, q, hcq, hblank, htok⟩ := read_item hread fun hn => hs.ends_numeral (hnext hn)
      rw [evaluate_loop, List.dropWhile_append_of_pos hblanks, hcq,
        List.dropWhile_cons_of_neg (by rw [hblank]; exact Bool.false_ne_true)]
      dsimp only
      rw [htok, List.map_cons, List.foldlM_cons]
      cases hstep : on_token A st i.1 with
      | error e =>
          show (on_token A st i.1).bind _ = _
          rw [hstep]
          rfl
      | ok st' =>
          show (on_token A st i.1).bind _ = _
          rw [hstep]
          exact ih hrest (Nat.le_of_succ_le_succ hguard) st'

end SysInC.Calc
