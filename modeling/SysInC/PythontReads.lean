/-
What the tokenizer of `src/pythont/pythont.c` reads, and how its run over a source ends.

Every function of the tokenizer has here the list of the places it reads, as indices of the source;
the place behind the last character is that of the terminating zero. The operators look two
characters ahead, whatever comes next: behind a last one that is past the zero. And of a number that
starts with its point nothing is taken, so that the same call is made for ever.
-/
import SysInC.PythontAst
import Mathlib.Data.List.GetD

set_option autoImplicit false

namespace SysInC.Pythont

/-! ## The places that are read -/

def lexer_skip_reads (p : Char → Bool) : ℕ → lexer_t → List ℕ
  | 0, l => [l.pos]
  | fuel + 1, l =>
    l.pos :: if p (lexer_peek l 0) then lexer_skip_reads p fuel (lexer_advance l) else []

def lexer_indent_reads : ℕ → lexer_t → List ℕ
  | 0, l => [l.pos]
  | fuel + 1, l =>
    l.pos :: if is_space (lexer_peek l 0) then lexer_indent_reads fuel (lexer_advance l) else []

def lexer_take_reads (p : Char → Bool) : ℕ → List Char → lexer_t → List ℕ
  | 0, _, l => [l.pos]
  | fuel + 1, text, l =>
    l.pos :: if p (lexer_peek l 0) ∧ text.length + 1 < LEX_TOKEN_TEXT then
      lexer_take_reads p fuel (text ++ [lexer_peek l 0]) (lexer_advance l)
    else []

/-- A backslash is looked behind. -/
def lexer_quoted_reads (quote : Char) : ℕ → List Char → lexer_t → List ℕ
  | 0, _, l => [l.pos]
  | fuel + 1, text, l =>
    let c := lexer_peek l 0
    l.pos :: if c ≠ '\x00' ∧ c ≠ quote then
      if c = '\n' then []
      else (if c = '\\' then [l.pos + 1] else []) ++
        if c = '\\' ∧ lexer_peek l 1 ≠ '\x00' then
          if text.length + 2 ≥ LEX_TOKEN_TEXT then []
          else
            let l' := lexer_advance l
            l'.pos :: lexer_quoted_reads quote fuel (text ++ [c, lexer_peek l' 0]) (lexer_advance l')
        else if text.length + 1 ≥ LEX_TOKEN_TEXT then []
        else lexer_quoted_reads quote fuel (text ++ [c]) (lexer_advance l)
    else []

def lexer_read_quoted_reads (l : lexer_t) (quote : Char) : List ℕ :=
  l.pos :: lexer_quoted_reads quote (l.rest.length + 1) [] (lexer_advance l)

def lexer_digits_reads (r : List Char × lexer_t) : List ℕ :=
  lexer_take_reads Char.isDigit r.2.rest.length r.1 r.2

def lexer_fraction_reads (is_float : Bool) (r : List Char × lexer_t) : List ℕ :=
  r.2.pos :: if lexer_peek r.2 0 = '.' ∧ ¬is_float then lexer_digits_reads (lexer_push r) else []

def lexer_exponent_reads (r : List Char × lexer_t) : List ℕ :=
  r.2.pos :: if lexer_peek r.2 0 = 'e' ∨ lexer_peek r.2 0 = 'E' then
    (lexer_push r).2.pos :: lexer_digits_reads (lexer_sign (lexer_push r))
  else []

def lexer_number_reads (l : lexer_t) : List ℕ :=
  let r := lexer_digits ([], l)
  let f := lexer_fraction (lexer_peek l 0 == '.') r
  lexer_digits_reads ([], l) ++ lexer_fraction_reads (lexer_peek l 0 == '.') r
    ++ lexer_exponent_reads f.2

/-- The next two characters are looked at first. -/
def lexer_operator_reads (l : lexer_t) : List ℕ :=
  let text := lexer_operator (lexer_peek l 0) (lexer_peek l 1) (lexer_peek l 2)
  [l.pos, l.pos + 1, l.pos + 2]
    ++ (if 2 ≤ text.length then [(lexer_advance l).pos] else [])
    ++ (if 3 ≤ text.length then [(lexer_advance_if (2 ≤ text.length) (lexer_advance l)).pos] else [])

def lexer_skip_comment_reads (l : lexer_t) : List ℕ := lexer_skip_reads not_eol l.rest.length l

def lexer_line_start_reads (l : lexer_t) : List ℕ :=
  let l' := (lexer_indent l.rest.length 0 l).2
  lexer_indent_reads l.rest.length l
    ++ if lexer_peek l' 0 = '#' then lexer_skip_comment_reads l' else []

/-- Where the scan of a token begins. -/
def lexer_front (l : lexer_t) : lexer_t :=
  lexer_skip (fun c => is_space c || c == '\r') l.rest.length l

def lexer_scan_reads (l : lexer_t) : List ℕ :=
  let l' := lexer_front l
  let c := lexer_peek l' 0
  lexer_skip_reads (fun c => is_space c || c == '\r') l.rest.length l ++
    if c = '\x00' then []
    else if c = '#' then lexer_skip_comment_reads l'
    else if c = '\n' then []
    else if lexer_is_identifier_start c then
      lexer_take_reads lexer_is_identifier_char l'.rest.length [] l'
    else (if c = '.' then [l'.pos + 1] else []) ++
      if c.isDigit ∨ (c = '.' ∧ (lexer_peek l' 1).isDigit) then lexer_number_reads l'
      else if c = '\'' ∨ c = '"' then lexer_read_quoted_reads l' c
      else lexer_operator_reads l'

/-- The places that one call of `lexer_next` reads. -/
def lexer_next_reads : ℕ → lexer_t → List ℕ
  | 0, _ => []
  | fuel + 1, l =>
    if 0 < l.pending_dedents then []
    else
      (if l.at_line_start then lexer_line_start_reads l else []) ++
        match (if l.at_line_start then lexer_line_start l else .proceed l) with
        | .emit _ _ => []
        | .again l => lexer_next_reads fuel l
        | .proceed l => lexer_scan_reads l ++
          match lexer_scan l with
          | .emit _ _ => []
          | .again l => lexer_next_reads fuel l
          | .proceed _ => []

def lexer_token_reads (l : lexer_t) : List ℕ := lexer_next_reads (l.rest.length + 1) l

/-! ## Inside the source -/

/-- The index of the terminating zero. -/
def lexer_t.end (l : lexer_t) : ℕ := l.pos + l.rest.length

/-- The places are not behind it. -/
def lexer_t.Covers (l : lexer_t) (reads : List ℕ) : Prop := ∀ i ∈ reads, i ≤ l.end

theorem covers_nil (l : lexer_t) : l.Covers [] := List.forall_mem_nil _

theorem covers_cons {l : lexer_t} {i : ℕ} {reads : List ℕ} :
    l.Covers (i :: reads) ↔ i ≤ l.end ∧ l.Covers reads := List.forall_mem_cons

theorem covers_append {l : lexer_t} {reads reads' : List ℕ} :
    l.Covers (reads ++ reads') ↔ l.Covers reads ∧ l.Covers reads' := by
  unfold lexer_t.Covers
  simp only [List.mem_append, or_imp, forall_and]

theorem lexer_t.Covers.of_end {l l' : lexer_t} {reads : List ℕ} (h : l'.Covers reads)
    (same : l'.end = l.end) : l.Covers reads :=
  fun i here => (h i here).trans same.le

theorem pos_le_end (l : lexer_t) : l.pos ≤ l.end := Nat.le_add_right _ _

/-- A character that is there has a place behind it. -/
theorem pos_succ_le_end {l : lexer_t} (h : lexer_peek l 0 ≠ '\x00') : l.pos + 1 ≤ l.end := by
  have lt := lexer_advance_lt h
  unfold lexer_t.end
  omega

theorem lexer_advance_end (l : lexer_t) : (lexer_advance l).end = l.end := by
  unfold lexer_advance
  split
  · rfl
  · next c rest h =>
    split_ifs
    · rfl
    · simp only [lexer_t.end, h, List.length_cons]
      omega
    · simp only [lexer_t.end, h, List.length_cons]
      omega

theorem lexer_skip_end (p : Char → Bool) (fuel : ℕ) (l : lexer_t) :
    (lexer_skip p fuel l).end = l.end := by
  induction fuel generalizing l with
  | zero => rfl
  | succ fuel ih =>
    rw [lexer_skip]
    split_ifs
    · rw [ih, lexer_advance_end]
    · rfl

theorem lexer_indent_end (fuel indent : ℕ) (l : lexer_t) :
    (lexer_indent fuel indent l).2.end = l.end := by
  induction fuel generalizing indent l with
  | zero => rfl
  | succ fuel ih =>
    rw [lexer_indent]
    by_cases space : is_space (lexer_peek l 0) = true
    · rw [if_pos space, ih, lexer_advance_end]
    · rw [if_neg space]

theorem lexer_take_end (p : Char → Bool) (fuel : ℕ) (text : List Char) (l : lexer_t) :
    (lexer_take p fuel text l).2.end = l.end := by
  induction fuel generalizing text l with
  | zero => rfl
  | succ fuel ih =>
    rw [lexer_take]
    split_ifs
    · rw [ih, lexer_advance_end]
    · rfl

theorem lexer_push_end (r : List Char × lexer_t) : (lexer_push r).2.end = r.2.end := by
  unfold lexer_push
  split_ifs
  · exact lexer_advance_end r.2
  · rfl

theorem lexer_digits_end (r : List Char × lexer_t) : (lexer_digits r).2.end = r.2.end :=
  lexer_take_end _ _ _ _

theorem lexer_fraction_end (is_float : Bool) (r : List Char × lexer_t) :
    (lexer_fraction is_float r).2.2.end = r.2.end := by
  unfold lexer_fraction
  split_ifs
  · rw [lexer_digits_end, lexer_push_end]
  · rfl

theorem lexer_sign_end (r : List Char × lexer_t) : (lexer_sign r).2.end = r.2.end := by
  unfold lexer_sign
  split_ifs
  · exact lexer_push_end r
  · rfl

theorem lexer_exponent_end (is_float : Bool) (r : List Char × lexer_t) :
    (lexer_exponent is_float r).2.2.end = r.2.end := by
  unfold lexer_exponent
  split_ifs
  · rw [lexer_digits_end, lexer_sign_end, lexer_push_end]
  · rfl

theorem lexer_number_end (l : lexer_t) : (lexer_number l).2.2.end = l.end := by
  unfold lexer_number
  rw [lexer_exponent_end, lexer_fraction_end, lexer_digits_end]

theorem lexer_quoted_end (quote : Char) (fuel : ℕ) (text : List Char) (l : lexer_t) :
    (lexer_quoted quote fuel text l).2.end = l.end := by
  induction fuel generalizing text l with
  | zero => rfl
  | succ fuel ih =>
    rw [lexer_quoted]
    dsimp only
    split_ifs
    · rfl
    · rfl
    · rw [ih, lexer_advance_end, lexer_advance_end]
    · rfl
    · rw [ih, lexer_advance_end]
    · rfl
    · exact lexer_advance_end l

theorem lexer_advance_if_end (b : Bool) (l : lexer_t) : (lexer_advance_if b l).end = l.end := by
  unfold lexer_advance_if
  split_ifs
  · exact lexer_advance_end l
  · rfl

/-! ## What the parts read -/

theorem lexer_skip_covers (p : Char → Bool) (fuel : ℕ) (l : lexer_t) :
    l.Covers (lexer_skip_reads p fuel l) := by
  induction fuel generalizing l with
  | zero => exact covers_cons.mpr ⟨pos_le_end l, covers_nil l⟩
  | succ fuel ih =>
    refine covers_cons.mpr ⟨pos_le_end l, ?_⟩
    split_ifs
    · exact (ih _).of_end (lexer_advance_end l)
    · exact covers_nil l

theorem lexer_indent_covers (fuel : ℕ) (l : lexer_t) : l.Covers (lexer_indent_reads fuel l) := by
  induction fuel generalizing l with
  | zero => exact covers_cons.mpr ⟨pos_le_end l, covers_nil l⟩
  | succ fuel ih =>
    refine covers_cons.mpr ⟨pos_le_end l, ?_⟩
    split_ifs
    · exact (ih _).of_end (lexer_advance_end l)
    · exact covers_nil l

theorem lexer_take_covers (p : Char → Bool) (fuel : ℕ) (text : List Char) (l : lexer_t) :
    l.Covers (lexer_take_reads p fuel text l) := by
  induction fuel generalizing text l with
  | zero => exact covers_cons.mpr ⟨pos_le_end l, covers_nil l⟩
  | succ fuel ih =>
    refine covers_cons.mpr ⟨pos_le_end l, ?_⟩
    split_ifs
    · exact (ih _ _).of_end (lexer_advance_end l)
    · exact covers_nil l

theorem lexer_quoted_covers (quote : Char) (fuel : ℕ) (text : List Char) (l : lexer_t) :
    l.Covers (lexer_quoted_reads quote fuel text l) := by
  induction fuel generalizing text l with
  | zero => exact covers_cons.mpr ⟨pos_le_end l, covers_nil l⟩
  | succ fuel ih =>
    have next := lexer_advance_end l
    refine covers_cons.mpr ⟨pos_le_end l, ?_⟩
    dsimp only
    by_cases inside : lexer_peek l 0 ≠ '\x00' ∧ lexer_peek l 0 ≠ quote
    · rw [if_pos inside]
      by_cases line : lexer_peek l 0 = '\n'
      · rw [if_pos line]
        exact covers_nil l
      rw [if_neg line, covers_append]
      constructor
      · split_ifs
        · exact covers_cons.mpr ⟨pos_succ_le_end inside.1, covers_nil l⟩
        · exact covers_nil l
      · split_ifs
        · exact covers_nil l
        · refine covers_cons.mpr ⟨next ▸ pos_le_end (lexer_advance l), ?_⟩
          exact (ih _ _).of_end ((lexer_advance_end _).trans next)
        · exact covers_nil l
        · exact (ih _ _).of_end next
    · rw [if_neg inside]
      exact covers_nil l

theorem lexer_read_quoted_covers (l : lexer_t) (quote : Char) :
    l.Covers (lexer_read_quoted_reads l quote) :=
  covers_cons.mpr ⟨pos_le_end l, (lexer_quoted_covers _ _ _ _).of_end (lexer_advance_end l)⟩

theorem lexer_digits_covers (r : List Char × lexer_t) : r.2.Covers (lexer_digits_reads r) :=
  lexer_take_covers _ _ _ _

theorem lexer_fraction_covers (is_float : Bool) (r : List Char × lexer_t) :
    r.2.Covers (lexer_fraction_reads is_float r) := by
  refine covers_cons.mpr ⟨pos_le_end r.2, ?_⟩
  split_ifs
  · exact (lexer_digits_covers _).of_end (lexer_push_end r)
  · exact covers_nil _

theorem lexer_exponent_covers (r : List Char × lexer_t) :
    r.2.Covers (lexer_exponent_reads r) := by
  refine covers_cons.mpr ⟨pos_le_end r.2, ?_⟩
  split_ifs
  · refine covers_cons.mpr ⟨lexer_push_end r ▸ pos_le_end (lexer_push r).2, ?_⟩
    exact (lexer_digits_covers _).of_end ((lexer_sign_end _).trans (lexer_push_end r))
  · exact covers_nil _

theorem lexer_number_covers (l : lexer_t) : l.Covers (lexer_number_reads l) := by
  have digits := lexer_digits_end ([], l)
  refine covers_append.mpr ⟨covers_append.mpr ⟨lexer_digits_covers ([], l), ?_⟩, ?_⟩
  · exact (lexer_fraction_covers _ _).of_end digits
  · exact (lexer_exponent_covers _).of_end ((lexer_fraction_end _ _).trans digits)

/-- The one place where the tokenizer looks behind the end: two characters ahead of an operator. -/
theorem lexer_operator_covers_iff (l : lexer_t) :
    l.Covers (lexer_operator_reads l) ↔ 2 ≤ l.rest.length := by
  have next := lexer_advance_end l
  have after := lexer_advance_if_end (2 ≤ (lexer_operator (lexer_peek l 0) (lexer_peek l 1)
    (lexer_peek l 2)).length) (lexer_advance l)
  unfold lexer_operator_reads
  rw [covers_append, covers_append]
  constructor
  · rintro ⟨⟨ahead, -⟩, -⟩
    have third := ahead (l.pos + 2) (by simp)
    unfold lexer_t.end at third
    omega
  · intro room
    refine ⟨⟨fun i here => ?_, ?_⟩, ?_⟩
    · simp only [List.mem_cons, List.not_mem_nil, or_false] at here
      unfold lexer_t.end
      omega
    · split_ifs
      · exact covers_cons.mpr ⟨next ▸ pos_le_end _, covers_nil l⟩
      · exact covers_nil l
    · split_ifs
      · exact covers_cons.mpr ⟨next ▸ after ▸ pos_le_end _, covers_nil l⟩
      · exact covers_nil l

theorem lexer_line_start_covers (l : lexer_t) : l.Covers (lexer_line_start_reads l) := by
  have indent := lexer_indent_end l.rest.length 0 l
  refine covers_append.mpr ⟨lexer_indent_covers _ l, ?_⟩
  split_ifs
  · exact (lexer_skip_covers _ _ _).of_end indent
  · exact covers_nil l

/-! ## What one call meets -/

/-- A character that begins no other token. -/
def is_operator (c : Char) : Bool :=
  !(c = '\x00' ∨ c = '#' ∨ c = '\n' ∨ lexer_is_identifier_start c ∨ c.isDigit ∨ c = '\'' ∨ c = '"')

/-- An operator or delimiter is the last character of the source. -/
def lexer_t.at_last_operator (l : lexer_t) : Prop := ∃ c, l.rest = [c] ∧ is_operator c = true

/-- A number starts with its point. -/
def lexer_t.at_point (l : lexer_t) : Prop :=
  lexer_peek l 0 = '.' ∧ (lexer_peek l 1).isDigit = true

theorem at_last_operator_iff (l : lexer_t) :
    l.at_last_operator ↔ l.rest.length = 1 ∧ is_operator (lexer_peek l 0) = true := by
  unfold lexer_t.at_last_operator lexer_peek
  constructor
  · rintro ⟨c, rest, operator⟩
    rw [rest]
    exact ⟨rfl, operator⟩
  · rintro ⟨one, operator⟩
    obtain ⟨c, rest⟩ := List.length_eq_one_iff.mp one
    rw [rest] at operator
    exact ⟨c, rest, operator⟩

theorem length_pos_of_peek {l : lexer_t} (h : lexer_peek l 0 ≠ '\x00') : 1 ≤ l.rest.length := by
  have lt := lexer_advance_lt h
  omega

theorem two_le_length_of_peek {l : lexer_t} (h : lexer_peek l 1 ≠ '\x00') : 2 ≤ l.rest.length := by
  by_contra short
  refine h (List.getD_eq_default _ _ ?_)
  omega

theorem lexer_scan_covers_iff (l : lexer_t) :
    l.Covers (lexer_scan_reads l) ↔ ¬(lexer_front l).at_last_operator := by
  have front : (lexer_front l).end = l.end := lexer_skip_end _ _ _
  have other : ∀ reads, is_operator (lexer_peek (lexer_front l) 0) = false →
      (lexer_front l).Covers reads → (l.Covers reads ↔ ¬(lexer_front l).at_last_operator) := by
    intro reads no covers
    rw [at_last_operator_iff, no]
    exact iff_of_true (covers.of_end front) (by simp)
  unfold lexer_scan_reads
  dsimp only
  rw [covers_append, and_iff_right (lexer_skip_covers _ _ l)]
  generalize lexer_front l = l' at front other
  by_cases zero : lexer_peek l' 0 = '\x00'
  · rw [if_pos zero]
    exact other _ (by simp [is_operator, zero]) (covers_nil l')
  rw [if_neg zero]
  by_cases comment : lexer_peek l' 0 = '#'
  · rw [if_pos comment]
    exact other _ (by simp [is_operator, comment]) (lexer_skip_covers _ _ _)
  rw [if_neg comment]
  by_cases line : lexer_peek l' 0 = '\n'
  · rw [if_pos line]
    exact other _ (by simp [is_operator, line]) (covers_nil l')
  rw [if_neg line]
  by_cases name : lexer_is_identifier_start (lexer_peek l' 0) = true
  · rw [if_pos name]
    exact other _ (by simp [is_operator, name]) (lexer_take_covers _ _ _ _)
  rw [if_neg name, covers_append]
  have point : l.Covers (if lexer_peek l' 0 = '.' then [l'.pos + 1] else []) := by
    split_ifs
    · exact covers_cons.mpr ⟨front ▸ pos_succ_le_end zero, covers_nil l⟩
    · exact covers_nil l
  rw [and_iff_right point]
  by_cases digit : (lexer_peek l' 0).isDigit = true
  · rw [if_pos (Or.inl digit)]
    exact other _ (by simp [is_operator, digit]) (lexer_number_covers l')
  by_cases fraction : lexer_peek l' 0 = '.' ∧ (lexer_peek l' 1).isDigit = true
  · rw [if_pos (Or.inr fraction)]
    have second : lexer_peek l' 1 ≠ '\x00' := by
      intro none
      rw [none] at fraction
      exact absurd fraction.2 (by decide)
    have two := two_le_length_of_peek second
    rw [at_last_operator_iff]
    exact iff_of_true ((lexer_number_covers l').of_end front) (by omega)
  rw [if_neg (by tauto)]
  by_cases quote : lexer_peek l' 0 = '\'' ∨ lexer_peek l' 0 = '"'
  · rw [if_pos quote]
    refine other _ ?_ (lexer_read_quoted_covers _ _)
    rcases quote with h | h <;> simp [is_operator, h]
  rw [if_neg quote]
  have operator : is_operator (lexer_peek l' 0) = true := by
    obtain ⟨single, double⟩ := not_or.mp quote
    simp [is_operator, zero, comment, line, name, digit, single, double]
  have one := length_pos_of_peek zero
  have same : l.Covers (lexer_operator_reads l') ↔ l'.Covers (lexer_operator_reads l') :=
    ⟨fun h => h.of_end front.symm, fun h => h.of_end front⟩
  rw [same, lexer_operator_covers_iff, at_last_operator_iff, and_iff_left operator]
  omega

/-- The tokenizer behind the indentation, if the call gets there. -/
def lexer_t.unindented (l : lexer_t) : lexer_t :=
  if l.at_line_start then { (lexer_indent l.rest.length 0 l).2 with at_line_start := false } else l

/-- The call scans a token: no dedent is pending, and the indentation is the one of the block. -/
def lexer_t.scans (l : lexer_t) : Prop :=
  l.pending_dedents = 0 ∧
    (l.at_line_start = true → (lexer_indent l.rest.length 0 l).1 = l.indents.headD 0)

/-- Where the token of the call begins. -/
def lexer_t.token_front (l : lexer_t) : lexer_t := lexer_front l.unindented

/-- Behind a comment there is the end of the line or of the source. -/
theorem lexer_skip_stops (p : Char → Bool) (zero : p '\x00' = false) (fuel : ℕ) (l : lexer_t)
    (enough : l.rest.length ≤ fuel) : p (lexer_peek (lexer_skip p fuel l) 0) = false := by
  induction fuel generalizing l with
  | zero =>
    have rest : l.rest = [] := List.length_eq_zero_iff.mp (Nat.le_zero.mp enough)
    simpa [lexer_skip, lexer_peek, rest] using zero
  | succ fuel ih =>
    rw [lexer_skip]
    split_ifs with more
    · have there : lexer_peek l 0 ≠ '\x00' := by
        intro h
        rw [h, zero] at more
        exact absurd more (by decide)
      have lt := lexer_advance_lt there
      exact ih _ (by omega)
    · exact Bool.eq_false_iff.mpr more

theorem lexer_comment_stops (l : lexer_t) :
    lexer_peek (lexer_skip_comment l) 0 = '\x00' ∨ lexer_peek (lexer_skip_comment l) 0 = '\n' := by
  have stop := lexer_skip_stops not_eol (by decide) l.rest.length l le_rfl
  by_contra neither
  obtain ⟨zero, line⟩ := not_or.mp neither
  unfold lexer_skip_comment at zero line
  simp [not_eol, zero, line] at stop

/-- At the end of a line no character is measured or skipped. -/
theorem lexer_skip_none {p : Char → Bool} {l : lexer_t} (no : p (lexer_peek l 0) = false)
    (fuel : ℕ) : lexer_skip p fuel l = l := by
  cases fuel with
  | zero => rfl
  | succ fuel => rw [lexer_skip, if_neg (by simp [no])]

theorem lexer_indent_none {l : lexer_t} (no : is_space (lexer_peek l 0) = false) (fuel : ℕ) :
    lexer_indent fuel 0 l = (0, l) := by
  cases fuel with
  | zero => rfl
  | succ fuel => rw [lexer_indent, if_neg (by simp [no])]

/-- How the two parts of a call end. -/
def lexer_call (l : lexer_t) : scan_t :=
  match (if l.at_line_start then lexer_line_start l else .proceed l) with
  | .proceed l' => lexer_scan l'
  | stop => stop

theorem lexer_next_succ {fuel : ℕ} {l : lexer_t} (h : l.pending_dedents = 0) :
    lexer_next (fuel + 1) l =
      match lexer_call l with
      | .emit token l' => (token, l')
      | .again l' => lexer_next fuel l'
      | .proceed l' => lexer_next fuel l' := by
  rw [lexer_next, if_neg (by omega), lexer_call]
  cases (if l.at_line_start then lexer_line_start l else scan_t.proceed l) <;> rfl

/-- What the two parts read. -/
def lexer_call_reads (l : lexer_t) : List ℕ :=
  (if l.at_line_start then lexer_line_start_reads l else []) ++
    match (if l.at_line_start then lexer_line_start l else .proceed l) with
    | .proceed l' => lexer_scan_reads l'
    | _ => []

theorem lexer_next_reads_succ {fuel : ℕ} {l : lexer_t} (h : l.pending_dedents = 0) :
    lexer_next_reads (fuel + 1) l = lexer_call_reads l ++
      match lexer_call l with
      | .emit _ _ => []
      | .again l' => lexer_next_reads fuel l'
      | .proceed _ => [] := by
  rw [lexer_next_reads, if_neg (by omega), lexer_call, lexer_call_reads]
  cases (if l.at_line_start then lexer_line_start l else scan_t.proceed l) with
  | emit token l' => simp
  | again l' => simp
  | proceed l' =>
    rw [List.append_assoc]

theorem lexer_dedent_pending_le (indent : ℕ) (indents : List ℕ) (pending : ℕ) :
    pending ≤ (lexer_dedent indent indents pending).2 := by
  induction indents generalizing pending with
  | nil => exact le_rfl
  | cons top indents ih =>
    rw [lexer_dedent]
    split_ifs
    · exact (Nat.le_succ _).trans (ih _)
    · exact le_rfl

/-- A shallower line closes a block. -/
theorem lexer_dedent_pending_pos {indent : ℕ} {indents : List ℕ} (less : indent < indents.headD 0)
    (pending : ℕ) : 0 < (lexer_dedent indent indents pending).2 := by
  cases indents with
  | nil => exact absurd less (Nat.not_lt_zero _)
  | cons top indents =>
    have deeper : indent < top := less
    rw [lexer_dedent, if_pos deeper]
    exact (Nat.succ_pos pending).trans_le (lexer_dedent_pending_le _ _ _)

/-- Only a line of the indentation of its block is scanned in the same call. -/
theorem lexer_line_start_proceed {l l' : lexer_t} (start : l.at_line_start = true)
    (h : lexer_line_start l = .proceed l') :
    (lexer_indent l.rest.length 0 l).1 = l.indents.headD 0 ∧ l' = l.unindented := by
  have kept := (lexer_indent_takes l.rest.length 0 l).indents
  unfold lexer_t.unindented
  rw [if_pos start]
  unfold lexer_line_start at h
  generalize lexer_indent l.rest.length 0 l = r at h kept ⊢
  obtain ⟨indent, l1⟩ := r
  dsimp only at h kept ⊢
  rw [← kept]
  split_ifs at h with _ _ _ _ less _ pending
  · exact absurd (lexer_dedent_pending_pos less _) pending
  · cases h
    exact ⟨by omega, rfl⟩

theorem lexer_line_start_of_scans {l : lexer_t} (start : l.at_line_start = true) (h : l.scans) :
    lexer_line_start l =
      let l' := (lexer_indent l.rest.length 0 l).2
      if lexer_peek l' 0 = '#' then .again (lexer_skip_comment l')
      else if lexer_peek l' 0 = '\n' then
        .emit (lexer_make_token .TOK_NEWLINE "\\n" l'.line l'.column) (lexer_advance l')
      else .proceed l.unindented := by
  have kept := (lexer_indent_takes l.rest.length 0 l).indents
  have level := h.2 start
  unfold lexer_line_start lexer_t.unindented
  rw [if_pos start]
  generalize lexer_indent l.rest.length 0 l = r at level kept ⊢
  obtain ⟨indent, l1⟩ := r
  dsimp only at level kept ⊢
  rw [kept, ← level, if_neg (lt_irrefl indent), if_neg (lt_irrefl indent)]

/-- What the scan of a call finds at its front. -/
theorem lexer_front_none {l : lexer_t} (no : is_space (lexer_peek l 0) = false)
    (cr : lexer_peek l 0 ≠ '\r') : lexer_front l = l :=
  lexer_skip_none (by simp [no, cr]) _

theorem at_last_operator_peek {l : lexer_t} (h : l.at_last_operator) :
    is_operator (lexer_peek l 0) = true :=
  ((at_last_operator_iff l).mp h).2

/-- The front of the call where a comment or the end of the line stands behind the indentation. -/
theorem token_front_of_stop {l : lexer_t} (start : l.at_line_start = true)
    (stop : lexer_peek (lexer_indent l.rest.length 0 l).2 0 = '#' ∨
      lexer_peek (lexer_indent l.rest.length 0 l).2 0 = '\n') :
    lexer_peek l.token_front 0 = lexer_peek (lexer_indent l.rest.length 0 l).2 0 := by
  have same : lexer_peek l.unindented 0 = lexer_peek (lexer_indent l.rest.length 0 l).2 0 := by
    unfold lexer_t.unindented
    rw [if_pos start]
    rfl
  rw [lexer_t.token_front, lexer_front_none, same]
  · rcases stop with h | h <;> rw [same, h] <;> decide
  · rcases stop with h | h <;> rw [same, h] <;> decide

theorem lexer_call_covers_iff {l : lexer_t} (none : l.pending_dedents = 0) :
    l.Covers (lexer_call_reads l) ↔ ¬(l.scans ∧ l.token_front.at_last_operator) := by
  unfold lexer_call_reads
  by_cases start : l.at_line_start = true
  · have unindented : l.unindented.end = l.end := by
      unfold lexer_t.unindented
      rw [if_pos start]
      exact lexer_indent_end l.rest.length 0 l
    rw [if_pos start, if_pos start, covers_append, and_iff_right (lexer_line_start_covers l)]
    by_cases scans : l.scans
    · rw [lexer_line_start_of_scans start scans, and_iff_right scans]
      dsimp only
      have stops : ∀ c, lexer_peek (lexer_indent l.rest.length 0 l).2 0 = c →
          c = '#' ∨ c = '\n' → ¬l.token_front.at_last_operator := by
        rintro c here stop last
        have operator := at_last_operator_peek last
        rw [token_front_of_stop start (here ▸ stop), here] at operator
        rcases stop with rfl | rfl <;> exact absurd operator (by decide)
      split_ifs with comment line
      · exact iff_of_true (covers_nil l) (stops _ comment (Or.inl rfl))
      · exact iff_of_true (covers_nil l) (stops _ line (Or.inr rfl))
      · exact Iff.trans ⟨fun h => h.of_end unindented.symm, fun h => h.of_end unindented⟩
          (lexer_scan_covers_iff l.unindented)
    · refine iff_of_true ?_ fun h => scans h.1
      cases ended : lexer_line_start l with
      | emit token l' => exact covers_nil l
      | again l' => exact covers_nil l
      | proceed l' =>
        exact absurd ⟨none, fun _ => (lexer_line_start_proceed start ended).1⟩ scans
  · have same : l.unindented = l := if_neg start
    have scans : l.scans := ⟨none, fun h => absurd h start⟩
    rw [if_neg start, if_neg start, List.nil_append, lexer_t.token_front, same,
      and_iff_right scans]
    exact lexer_scan_covers_iff l

/-! ## The number without an end -/

/-- The token of the number that starts with its point. -/
def token_t.is_point (t : token_t) : Prop := t.type = .TOK_FLOAT ∧ t.text = ""

theorem lexer_take_length (p : Char → Bool) (fuel : ℕ) (text : List Char) (l : lexer_t) :
    text.length ≤ (lexer_take p fuel text l).1.length := by
  induction fuel generalizing text l with
  | zero => exact le_rfl
  | succ fuel ih =>
    rw [lexer_take]
    split_ifs
    · refine le_trans ?_ (ih _ _)
      rw [List.length_append]
      exact Nat.le_add_right _ _
    · exact le_rfl

theorem lexer_push_length (r : List Char × lexer_t) : r.1.length ≤ (lexer_push r).1.length := by
  unfold lexer_push
  split_ifs
  · rw [List.length_append]
    exact Nat.le_add_right _ _
  · exact le_rfl

theorem lexer_digits_length (r : List Char × lexer_t) : r.1.length ≤ (lexer_digits r).1.length :=
  lexer_take_length _ _ _ _

theorem lexer_fraction_length (is_float : Bool) (r : List Char × lexer_t) :
    r.1.length ≤ (lexer_fraction is_float r).2.1.length := by
  unfold lexer_fraction
  split_ifs
  · exact (lexer_push_length r).trans (lexer_digits_length _)
  · exact le_rfl

theorem lexer_exponent_length (is_float : Bool) (r : List Char × lexer_t) :
    r.1.length ≤ (lexer_exponent is_float r).2.1.length := by
  have sign : ∀ r : List Char × lexer_t, r.1.length ≤ (lexer_sign r).1.length := by
    intro r
    unfold lexer_sign
    split_ifs
    · exact lexer_push_length r
    · exact le_rfl
  unfold lexer_exponent
  split_ifs
  · exact (lexer_push_length r).trans ((sign _).trans (lexer_digits_length _))
  · exact le_rfl

/-- A number that starts with a digit has a text. -/
theorem lexer_number_text {l : lexer_t} (digit : (lexer_peek l 0).isDigit = true) :
    (lexer_number l).2.1 ≠ [] := by
  have there : lexer_peek l 0 ≠ '\x00' := by
    intro h
    rw [h] at digit
    exact absurd digit (by decide)
  have first : 1 ≤ (lexer_digits ([], l)).1.length := by
    obtain ⟨n, hn⟩ := Nat.exists_eq_succ_of_ne_zero (Nat.one_le_iff_ne_zero.mp
      (length_pos_of_peek there))
    have guard : (lexer_peek l 0).isDigit = true ∧ ([] : List Char).length + 1 < LEX_TOKEN_TEXT :=
      ⟨digit, by decide⟩
    unfold lexer_digits
    rw [hn, Nat.succ_eq_add_one, lexer_take, if_pos guard]
    exact lexer_take_length _ _ [lexer_peek l 0] _
  have more := (lexer_fraction_length (lexer_peek l 0 == '.') (lexer_digits ([], l))).trans
    (lexer_exponent_length (lexer_fraction (lexer_peek l 0 == '.') (lexer_digits ([], l))).1 _)
  intro empty
  unfold lexer_number at empty
  rw [empty] at more
  exact absurd (first.trans more) (by decide)

/-- The scan from its front on. -/
def lexer_scan_at (l : lexer_t) : scan_t :=
  let c := lexer_peek l 0
  if c = '\x00' then
    match l.indents with
    | _ :: indents =>
      .emit (lexer_make_token .TOK_DEDENT "" l.line l.column) { l with indents := indents }
    | [] => .emit (lexer_make_token .TOK_EOF "" l.line l.column) l
  else if c = '#' then .again (lexer_skip_comment l)
  else if c = '\n' then
    .emit (lexer_make_token .TOK_NEWLINE "\\n" l.line l.column)
      { lexer_advance l with at_line_start := true }
  else if lexer_is_identifier_start c then
    .emit (lexer_read_name l).1 (lexer_read_name l).2
  else if c.isDigit ∨ (c = '.' ∧ (lexer_peek l 1).isDigit) then
    .emit (lexer_read_number l).1 (lexer_read_number l).2
  else if c = '\'' ∨ c = '"' then .emit (lexer_read_string l).1 (lexer_read_string l).2
  else .emit (lexer_read_operator l).1 (lexer_read_operator l).2

theorem lexer_scan_eq (l : lexer_t) : lexer_scan l = lexer_scan_at (lexer_front l) := rfl

theorem lexer_scan_at_point {l : lexer_t} (h : l.at_point) :
    lexer_scan_at l = .emit (lexer_make_token .TOK_FLOAT "" l.line l.column) l := by
  obtain ⟨point, digit⟩ := h
  unfold lexer_scan_at
  dsimp only
  rw [if_neg (by rw [point]; decide), if_neg (by rw [point]; decide), if_neg (by rw [point]; decide),
    if_neg (by rw [point]; decide), if_pos (Or.inr ⟨point, digit⟩), lexer_read_number,
    lexer_number_point point]
  rfl

theorem not_is_point {type : token_type_t} (other : type ≠ .TOK_FLOAT) {text : String}
    {line column : ℕ} : ¬(lexer_make_token type text line column).is_point :=
  fun empty => other empty.1

theorem lexer_read_number_eq (l : lexer_t) :
    (lexer_read_number l).1.text = String.ofList (lexer_number l).2.1
      ∧ (lexer_read_number l).2 = (lexer_number l).2.2 := by
  unfold lexer_read_number
  generalize lexer_number l = r
  exact ⟨rfl, rfl⟩

theorem lexer_scan_at_not_point {l l' : lexer_t} {token : token_t}
    (h : lexer_scan_at l = .emit token l') (empty : token.is_point) : l.at_point := by
  unfold lexer_scan_at at h
  dsimp only at h
  split_ifs at h with zero comment line name number quote
  · cases indents : l.indents with
    | nil =>
      rw [indents] at h
      cases h
      exact absurd empty (not_is_point (by decide))
    | cons top indents' =>
      rw [indents] at h
      cases h
      exact absurd empty (not_is_point (by decide))
  · cases h
    exact absurd empty (not_is_point (by decide))
  · cases h
    refine absurd empty (not_is_point ?_)
    split_ifs <;> decide
  · cases h
    refine number.resolve_left fun digit => ?_
    refine lexer_number_text digit ?_
    have text := empty.2
    rw [(lexer_read_number_eq l).1] at text
    exact String.ofList_eq_empty_iff.mp text
  · cases h
    refine absurd empty ?_
    unfold lexer_read_string
    split
    · exact not_is_point (by decide)
    · exact not_is_point (by decide)
  · cases h
    refine absurd empty (not_is_point ?_)
    split_ifs <;> decide

theorem at_point_not_space {l : lexer_t} (h : l.at_point) : lexer_front l = l :=
  lexer_front_none (by rw [h.1]; decide) (by rw [h.1]; decide)

/-- Blanks do not start a line. -/
theorem lexer_skip_at_line_start {p : Char → Bool} (line : p '\n' = false) (fuel : ℕ) (l : lexer_t) :
    (lexer_skip p fuel l).at_line_start = l.at_line_start := by
  induction fuel generalizing l with
  | zero => rfl
  | succ fuel ih =>
    rw [lexer_skip]
    split_ifs with more
    · rw [ih]
      unfold lexer_advance
      split
      · rfl
      · next c rest here =>
        have other : c ≠ '\n' := by
          rintro rfl
          rw [lexer_peek, here] at more
          exact absurd (more.symm.trans line) (by decide)
        rw [if_neg other]
        split_ifs <;> rfl
    · rfl

theorem token_front_at_line_start (l : lexer_t) : l.token_front.at_line_start = false := by
  refine (lexer_skip_at_line_start (by decide) _ _).trans ?_
  unfold lexer_t.unindented
  split_ifs with start
  · rfl
  · exact Bool.eq_false_iff.mpr start

theorem token_front_pending (l : lexer_t) : l.token_front.pending_dedents = l.pending_dedents := by
  refine (lexer_skip_takes _ _ _).pending.trans ?_
  unfold lexer_t.unindented
  split_ifs
  · exact (lexer_indent_takes l.rest.length 0 l).pending
  · rfl

/-- A call that scans goes on at its front, unless there is nothing to scan. -/
theorem lexer_call_of_scans {l : lexer_t} (scans : l.scans)
    (comment : lexer_peek l.token_front 0 ≠ '#') (line : lexer_peek l.token_front 0 ≠ '\n') :
    lexer_call l = lexer_scan_at l.token_front := by
  unfold lexer_call
  by_cases start : l.at_line_start = true
  · have front := token_front_of_stop start
    rw [if_pos start, lexer_line_start_of_scans start scans]
    dsimp only
    rw [if_neg fun h => comment ((front (Or.inl h)).trans h),
      if_neg fun h => line ((front (Or.inr h)).trans h)]
    exact lexer_scan_eq _
  · have same : l.unindented = l := if_neg start
    rw [if_neg start, lexer_t.token_front, same]
    exact lexer_scan_eq l

theorem lexer_line_start_not_point {l l' : lexer_t} {token : token_t}
    (h : lexer_line_start l = .emit token l') : ¬token.is_point := by
  unfold lexer_line_start at h
  dsimp only at h
  split_ifs at h
  all_goals cases h
  all_goals exact not_is_point (by decide)

/-- A call that scans nothing ends with a token that is no number. -/
theorem lexer_call_not_point {l l' : lexer_t} {token : token_t} (none : l.pending_dedents = 0)
    (h : lexer_call l = .emit token l') (empty : token.is_point) :
    l.scans ∧ l.token_front.at_point := by
  unfold lexer_call at h
  by_cases start : l.at_line_start = true
  · rw [if_pos start] at h
    cases ended : lexer_line_start l with
    | emit token' l'' =>
      rw [ended] at h
      cases h
      exact absurd empty (lexer_line_start_not_point ended)
    | again l'' =>
      rw [ended] at h
      cases h
    | proceed l'' =>
      rw [ended] at h
      obtain ⟨level, rfl⟩ := lexer_line_start_proceed start ended
      exact ⟨⟨none, fun _ => level⟩, lexer_scan_at_not_point h empty⟩
  · have same : l.unindented = l := if_neg start
    rw [if_neg start] at h
    rw [lexer_t.token_front, same]
    exact ⟨⟨none, fun h => absurd h start⟩, lexer_scan_at_not_point h empty⟩

/-! ## One call -/

/-- The end of the line or of the source. -/
def lexer_t.at_line_end (l : lexer_t) : Prop := lexer_peek l 0 = '\x00' ∨ lexer_peek l 0 = '\n'

theorem lexer_t.at_line_end.indent {l : lexer_t} (h : l.at_line_end) (fuel : ℕ) :
    lexer_indent fuel 0 l = (0, l) := by
  refine lexer_indent_none ?_ fuel
  rcases h with h | h <;> rw [h] <;> decide

theorem lexer_t.at_line_end.unindented {l : lexer_t} (h : l.at_line_end) :
    lexer_peek l.unindented 0 = lexer_peek l 0 := by
  unfold lexer_t.unindented
  rw [h.indent]
  split_ifs <;> rfl

theorem lexer_t.at_line_end.token_front {l : lexer_t} (h : l.at_line_end) :
    lexer_peek l.token_front 0 = lexer_peek l 0 := by
  have same := h.unindented
  rw [lexer_t.token_front, lexer_front_none, same]
  · rcases h with h | h <;> rw [same, h] <;> decide
  · rcases h with h | h <;> rw [same, h] <;> decide

/-- A comment is not followed by a comment in the same call. -/
theorem lexer_t.at_line_end.call {l : lexer_t} (h : l.at_line_end) :
    ∃ token l', lexer_call l = .emit token l' := by
  have scan : ∀ l' : lexer_t, l'.at_line_end → ∃ token l'', lexer_scan_at l' = .emit token l'' := by
    intro l' stop
    unfold lexer_scan_at
    dsimp only
    rcases stop with zero | line
    · rw [if_pos zero]
      cases l'.indents with
      | nil => exact ⟨_, _, rfl⟩
      | cons top indents => exact ⟨_, _, rfl⟩
    · rw [if_neg (by rw [line]; decide), if_neg (by rw [line]; decide), if_pos line]
      exact ⟨_, _, rfl⟩
  have front : l.token_front.at_line_end := by
    unfold lexer_t.at_line_end
    rw [h.token_front]
    exact h
  unfold lexer_call
  by_cases start : l.at_line_start = true
  · rw [if_pos start]
    cases ended : lexer_line_start l with
    | emit token l' => exact ⟨_, _, rfl⟩
    | again l' =>
      have comment : lexer_peek l 0 = '#' := by
        unfold lexer_line_start at ended
        rw [h.indent] at ended
        dsimp only at ended
        split_ifs at ended with comment
        exact comment
      rcases h with zero | line
      · rw [zero] at comment
        exact absurd comment (by decide)
      · rw [line] at comment
        exact absurd comment (by decide)
    | proceed l' =>
      obtain ⟨-, rfl⟩ := lexer_line_start_proceed start ended
      exact scan _ front
  · have same : l.unindented = l := if_neg start
    rw [if_neg start]
    rw [lexer_t.token_front, same] at front
    exact scan _ front

theorem at_line_end_not_operator {l : lexer_t} (h : l.at_line_end) :
    ¬l.token_front.at_last_operator := by
  intro last
  have operator := at_last_operator_peek last
  rw [h.token_front] at operator
  rcases h with h | h <;> rw [h] at operator <;> exact absurd operator (by decide)

theorem at_line_end_not_point {l : lexer_t} (h : l.at_line_end) : ¬l.token_front.at_point := by
  intro point
  have dot := point.1
  rw [h.token_front] at dot
  rcases h with h | h <;> rw [h] at dot <;> exact absurd dot (by decide)

theorem lexer_line_start_again {l l' : lexer_t} (h : lexer_line_start l = .again l') :
    ∃ l1, l' = lexer_skip_comment l1 := by
  unfold lexer_line_start at h
  dsimp only at h
  split_ifs at h
  cases h
  exact ⟨_, rfl⟩

theorem lexer_scan_at_again {l l' : lexer_t} (h : lexer_scan_at l = .again l') :
    ∃ l1, l' = lexer_skip_comment l1 := by
  unfold lexer_scan_at at h
  dsimp only at h
  split_ifs at h
  · cases indents : l.indents with
    | nil =>
      rw [indents] at h
      cases h
    | cons top indents' =>
      rw [indents] at h
      cases h
  · cases h
    exact ⟨_, rfl⟩

theorem unindented_takes (l : lexer_t) : Takes l l.unindented := by
  have indent := lexer_indent_takes l.rest.length 0 l
  unfold lexer_t.unindented
  split_ifs
  · exact ⟨indent.rest, indent.indents, indent.pending⟩
  · exact Takes.refl l

/-- A call that goes on behind a comment goes on at the end of its line. -/
theorem lexer_call_again {l l' : lexer_t} (h : lexer_call l = .again l') :
    l'.at_line_end ∧ Takes l l' ∧ l'.rest.length < l.rest.length := by
  have scanned : lexer_scan l.unindented = .again l' →
      l'.at_line_end ∧ Takes l l' ∧ l'.rest.length < l.rest.length := by
    intro ended
    obtain ⟨l1, rfl⟩ := lexer_scan_at_again ended
    have indent := unindented_takes l
    have advances := lexer_scan_advances l.unindented
    rw [ended] at advances
    exact ⟨lexer_comment_stops l1, indent.trans advances.1, advances.2.trans_le indent.rest⟩
  unfold lexer_call at h
  by_cases start : l.at_line_start = true
  · rw [if_pos start] at h
    cases ended : lexer_line_start l with
    | emit token l'' =>
      rw [ended] at h
      cases h
    | again l'' =>
      rw [ended] at h
      cases h
      have advances := lexer_line_start_advances l
      rw [ended] at advances
      obtain ⟨l1, rfl⟩ := lexer_line_start_again ended
      exact ⟨lexer_comment_stops l1, advances⟩
    | proceed l'' =>
      rw [ended] at h
      obtain ⟨-, rfl⟩ := lexer_line_start_proceed start ended
      exact scanned h
  · have same : l.unindented = l := if_neg start
    rw [if_neg start] at h
    rw [same] at scanned
    exact scanned h

/-- The state behind a call. -/
def scan_t.lexer : scan_t → lexer_t
  | .emit _ l => l
  | .again l => l
  | .proceed l => l

theorem lexer_line_start_end (l : lexer_t) : (lexer_line_start l).lexer.end = l.end := by
  have indent := lexer_indent_end l.rest.length 0 l
  unfold lexer_line_start
  dsimp only
  split_ifs
  · exact (lexer_skip_end _ _ _).trans indent
  · exact (lexer_advance_end _).trans indent
  all_goals exact indent

theorem lexer_scan_at_end (l : lexer_t) : (lexer_scan_at l).lexer.end = l.end := by
  unfold lexer_scan_at
  dsimp only
  split_ifs
  · cases l.indents <;> rfl
  · exact lexer_skip_end _ _ _
  · exact lexer_advance_end l
  · exact lexer_take_end _ _ _ _
  · rw [scan_t.lexer, (lexer_read_number_eq l).2]
    exact lexer_number_end l
  · unfold scan_t.lexer lexer_read_string lexer_read_quoted
    dsimp only
    have quoted := lexer_quoted_end (lexer_peek l 0) (l.rest.length + 1) [] (lexer_advance l)
    rw [lexer_advance_end] at quoted
    generalize lexer_quoted (lexer_peek l 0) (l.rest.length + 1) [] (lexer_advance l) = r at quoted ⊢
    obtain ⟨_ | _, _⟩ := r <;> exact quoted
  · unfold scan_t.lexer lexer_read_operator
    dsimp only
    rw [lexer_advance_if_end, lexer_advance_if_end, lexer_advance_end]

theorem lexer_call_end (l : lexer_t) : (lexer_call l).lexer.end = l.end := by
  have scanned : ∀ l', l'.end = l.end → (lexer_scan l').lexer.end = l.end := by
    intro l' same
    rw [lexer_scan_eq, lexer_scan_at_end, lexer_front, lexer_skip_end, same]
  have started := lexer_line_start_end l
  unfold lexer_call
  split_ifs with start
  · cases ended : lexer_line_start l with
    | emit token l' => rwa [ended] at started
    | again l' => rwa [ended] at started
    | proceed l' =>
      rw [ended] at started
      exact scanned l' started
  · exact scanned l rfl

/-- `lexer_scan` ends the call, and so does a call. -/
theorem lexer_call_ends (l l' : lexer_t) : lexer_call l ≠ .proceed l' := by
  unfold lexer_call
  intro h
  split at h
  · exact lexer_scan_ends _ _ h
  · next other => exact other l' h

theorem lexer_next_end (fuel : ℕ) (l : lexer_t) : (lexer_next fuel l).2.end = l.end := by
  induction fuel generalizing l with
  | zero => rfl
  | succ fuel ih =>
    by_cases none : l.pending_dedents = 0
    · have call := lexer_call_end l
      rw [lexer_next_succ none]
      cases ended : lexer_call l with
      | emit token l' => rwa [ended] at call
      | again l' =>
        rw [ended] at call
        exact (ih l').trans call
      | proceed l' =>
        rw [ended] at call
        exact (ih l').trans call
    · rw [lexer_next, if_pos (Nat.pos_of_ne_zero none)]
      rfl

theorem lexer_t.at_line_end.covers {l : lexer_t} (h : l.at_line_end) (fuel : ℕ) :
    l.Covers (lexer_next_reads fuel l) := by
  cases fuel with
  | zero => exact covers_nil l
  | succ fuel =>
    by_cases none : l.pending_dedents = 0
    · obtain ⟨token, l', ended⟩ := h.call
      rw [lexer_next_reads_succ none, ended, List.append_nil, lexer_call_covers_iff none]
      exact fun last => at_line_end_not_operator h last.2
    · rw [lexer_next_reads, if_pos (Nat.pos_of_ne_zero none)]
      exact covers_nil l

/-- A call reads inside the source unless its token is an operator at the end of it. -/
theorem lexer_token_covers_iff (l : lexer_t) :
    l.Covers (lexer_token_reads l) ↔ ¬(l.scans ∧ l.token_front.at_last_operator) := by
  unfold lexer_token_reads
  by_cases none : l.pending_dedents = 0
  · have call := lexer_call_end l
    rw [lexer_next_reads_succ none, covers_append, lexer_call_covers_iff none]
    refine and_iff_left ?_
    cases ended : lexer_call l with
    | emit token l' => exact covers_nil l
    | again l' =>
      rw [ended] at call
      exact ((lexer_call_again ended).1.covers _).of_end call
    | proceed l' => exact covers_nil l
  · rw [lexer_next_reads, if_pos (Nat.pos_of_ne_zero none)]
    exact iff_of_true (covers_nil l) fun last => none last.1.1

theorem lexer_t.at_line_end.not_point {l : lexer_t} (h : l.at_line_end)
    (none : l.pending_dedents = 0) (fuel : ℕ) : ¬(lexer_next fuel l).1.is_point := by
  cases fuel with
  | zero => exact not_is_point (by decide)
  | succ fuel =>
    obtain ⟨token, l', ended⟩ := h.call
    rw [lexer_next_succ none, ended]
    exact fun point => at_line_end_not_point h (lexer_call_not_point none ended point).2

theorem lexer_token_point {l : lexer_t} (point : (lexer_token l).1.is_point) :
    l.scans ∧ l.token_front.at_point := by
  unfold lexer_token at point
  by_cases none : l.pending_dedents = 0
  · rw [lexer_next_succ none] at point
    cases ended : lexer_call l with
    | emit token l' =>
      rw [ended] at point
      exact lexer_call_not_point none ended point
    | again l' =>
      rw [ended] at point
      obtain ⟨stop, takes, -⟩ := lexer_call_again ended
      exact absurd point (stop.not_point (takes.pending.trans none) _)
    | proceed l' => exact absurd ended (lexer_call_ends l l')
  · rw [lexer_next, if_pos (Nat.pos_of_ne_zero none)] at point
    exact absurd point (not_is_point (by decide))

/-- The call that meets a number with its point first stays in front of it. -/
theorem lexer_token_of_point {l : lexer_t} (scans : l.scans) (point : l.token_front.at_point) :
    lexer_token l = (lexer_make_token .TOK_FLOAT "" l.token_front.line l.token_front.column,
      l.token_front) := by
  unfold lexer_token
  rw [lexer_next_succ scans.1, lexer_call_of_scans scans (by rw [point.1]; decide)
    (by rw [point.1]; decide), lexer_scan_at_point point]

/-! ## The run over a source -/

/-- The tokenizer in front of the call `k`. -/
def lexer_run (source : List Char) : ℕ → lexer_t
  | 0 => lexer_init source
  | k + 1 => (lexer_token (lexer_run source k)).2

/-- `TOK_EOF` or `TOK_ERROR`. -/
def token_t.ends (t : token_t) : Prop := t.type = .TOK_EOF ∨ t.type = .TOK_ERROR

/-- No call in front of `k` ended the run. -/
def Live (source : List Char) (k : ℕ) : Prop :=
  ∀ j < k, ¬(lexer_token (lexer_run source j)).1.ends

/-- `lexer_next` calls itself in the state `l'`. -/
def Recurses (l l' : lexer_t) : Prop := l.pending_dedents = 0 ∧ lexer_call l = .again l'

/-- The calls up to the first end or error read nothing behind the terminating zero, that one is
reached, and the recursion of a call has less and less before it. -/
structure TerminatesInside (source : List Char) : Prop where
  reads : ∀ k, Live source k → ∀ i ∈ lexer_token_reads (lexer_run source k), i ≤ source.length
  ends : ∃ k ≤ 2 * source.length, (lexer_token (lexer_run source k)).1.ends
  recursion : ∀ l l', Recurses l l' → lexer_measure l' < lexer_measure l

theorem lexer_run_end (source : List Char) (k : ℕ) : (lexer_run source k).end = source.length := by
  induction k with
  | zero => exact Nat.zero_add _
  | succ k ih => exact (lexer_next_end _ _).trans ih

theorem recursion_decreases {l l' : lexer_t} (h : Recurses l l') :
    lexer_measure l' < lexer_measure l := by
  obtain ⟨-, takes, less⟩ := lexer_call_again h.2
  have indents := takes.indents
  have pending := takes.pending
  simp only [lexer_measure, indents, pending]
  omega

/-- A token that is neither an end nor the number is paid for. -/
theorem lexer_run_step {source : List Char} {k : ℕ}
    (goes_on : ¬(lexer_token (lexer_run source k)).1.ends)
    (point : ¬(lexer_token (lexer_run source k)).1.is_point) :
    lexer_measure (lexer_run source (k + 1)) < lexer_measure (lexer_run source k) := by
  refine (lexer_next_measure _ (lexer_run source k)).2 ?_
  have stuck : ¬(lexer_token (lexer_run source k)).1.stuck = true := by
    unfold token_t.stuck
    rw [decide_eq_true_eq]
    rintro (eof | error | empty)
    exacts [goes_on (Or.inl eof), goes_on (Or.inr error), point empty]
  exact Bool.eq_false_iff.mpr stuck

theorem lexer_run_measure {source : List Char} {k : ℕ} (live : Live source k)
    (points : ∀ j < k, ¬(lexer_token (lexer_run source j)).1.is_point) :
    lexer_measure (lexer_run source k) + k ≤ 2 * source.length := by
  induction k with
  | zero => exact le_rfl
  | succ k ih =>
    have before := ih (fun j hj => live j (hj.trans k.lt_succ_self))
      fun j hj => points j (hj.trans k.lt_succ_self)
    have step := lexer_run_step (live k k.lt_succ_self) (points k k.lt_succ_self)
    omega

/-- In front of the number every later call is the same. -/
theorem lexer_run_stuck {source : List Char} {k : ℕ} (scans : (lexer_run source k).scans)
    (point : (lexer_run source k).token_front.at_point) (n : ℕ) :
    (lexer_run source (k + n)).scans ∧ (lexer_run source (k + n)).token_front.at_point := by
  induction n with
  | zero => exact ⟨scans, point⟩
  | succ n ih =>
    obtain ⟨scans, point⟩ := ih
    have next : lexer_run source (k + (n + 1)) = (lexer_run source (k + n)).token_front :=
      congrArg Prod.snd (lexer_token_of_point scans point)
    have start := token_front_at_line_start (lexer_run source (k + n))
    have pending := token_front_pending (lexer_run source (k + n))
    rw [next]
    generalize (lexer_run source (k + n)).token_front = l at point start pending
    have same : l.unindented = l := if_neg (by simp [start])
    refine ⟨⟨pending.trans scans.1, fun h => absurd h (by simp [start])⟩, ?_⟩
    rwa [lexer_t.token_front, same, at_point_not_space point]

/-- **The run of the tokenizer.** It stays inside the source and comes to its end exactly when no
call scans an operator or delimiter that is the last character, or a number that starts with its
point. -/
theorem lexer_terminates_iff (source : List Char) :
    TerminatesInside source ↔ ∀ k, Live source k → (lexer_run source k).scans →
      ¬(lexer_run source k).token_front.at_last_operator ∧
        ¬(lexer_run source k).token_front.at_point := by
  constructor
  · intro inside k live scans
    constructor
    · intro last
      refine (lexer_token_covers_iff (lexer_run source k)).mp ?_ ⟨scans, last⟩
      intro i here
      exact (inside.reads k live i here).trans (lexer_run_end source k).ge
    · intro point
      obtain ⟨j, -, ends⟩ := inside.ends
      have behind : k ≤ j := by
        by_contra before
        exact live j (not_le.mp before) ends
      obtain ⟨n, rfl⟩ := Nat.exists_eq_add_of_le behind
      obtain ⟨scans', point'⟩ := lexer_run_stuck scans point n
      rw [lexer_token_of_point scans' point'] at ends
      rcases ends with eof | error
      · cases eof
      · cases error
  · intro clear
    have points : ∀ k, Live source k → ¬(lexer_token (lexer_run source k)).1.is_point := by
      intro k live point
      obtain ⟨scans, here⟩ := lexer_token_point point
      exact (clear k live scans).2 here
    refine ⟨fun k live i here => ?_, ?_, fun l l' => recursion_decreases⟩
    · have covers := (lexer_token_covers_iff (lexer_run source k)).mpr
        fun last => (clear k live last.1).1 last.2
      exact (covers i here).trans (lexer_run_end source k).le
    · by_contra never
      have live : Live source (2 * source.length + 1) := by
        intro j before ends
        exact never ⟨j, Nat.lt_succ_iff.mp before, ends⟩
      have measure := lexer_run_measure live fun j before =>
        points j fun i hi => live i (hi.trans before)
      omega

/-- Behind a last `)` the tokenizer reads past the terminating zero. -/
theorem closing_looked_behind : ¬ ∀ source : List Char, TerminatesInside source := by
  intro inside
  have reads := (inside [')']).reads 0 (fun j before => absurd before (Nat.not_lt_zero j)) 2
    (by decide)
  exact absurd reads (by decide)

end SysInC.Pythont
