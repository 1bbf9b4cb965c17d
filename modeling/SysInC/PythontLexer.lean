/-
The tokenizer of `src/pythont/pythont.c` (`lexer_init` .. `lexer_next`).

A `lexer_t` keeps what is left of the source, `source + pos`, instead of the whole of it:
`lexer_peek` reads from there, and what lies behind the end reads as the terminating zero.
`indents` is `indent_stack[indent_top], ..., indent_stack[1]`; below it lies the 0 that
`lexer_init` puts there.

A `Char` is a byte of it.

The one recursive call of `lexer_next` follows a comment. It is cut off by a count of
characters, which is never reached (`lexer_next_fuel`): each comment takes at least its `#`.
The result of this file is `lexer_next_measure`: a token takes something from the source, or
from the indentation that is still to be closed, unless it is `stuck`.
-/
import Mathlib.Data.List.Basic
import Mathlib.Tactic.Ring

set_option autoImplicit false

namespace SysInC.Pythont

/-! ## Tokens -/

inductive token_type_t where
  | TOK_EOF
  | TOK_IDENTIFIER
  | TOK_INTEGER
  | TOK_FLOAT
  | TOK_STRING
  | TOK_NEWLINE
  | TOK_INDENT
  | TOK_DEDENT
  | TOK_OPERATOR
  | TOK_DELIMITER
  | TOK_KEYWORD
  | TOK_ERROR
  deriving DecidableEq

structure token_t where
  type : token_type_t
  text : String
  line : ℕ
  column : ℕ

/-- `LEX_TOKEN_TEXT`. -/
def LEX_TOKEN_TEXT : ℕ := 128

/-- `MAX_INDENTS`. -/
def MAX_INDENTS : ℕ := 64

/-- The state of the tokenizer. -/
structure lexer_t where
  rest : List Char
  pos : ℕ
  line : ℕ
  column : ℕ
  at_line_start : Bool
  pending_dedents : ℕ
  indents : List ℕ

def lexer_is_identifier_start (c : Char) : Bool := c.isAlpha || c == '_'

def lexer_is_identifier_char (c : Char) : Bool := c.isAlphanum || c == '_'

def keywords : List String :=
  ["and", "as", "assert", "break", "class", "continue", "def", "elif", "else", "except", "False",
    "finally", "for", "from", "if", "import", "in", "is", "lambda", "None", "not", "or", "pass",
    "raise", "return", "True", "try", "while", "with", "yield"]

def lexer_is_keyword (text : String) : Bool := keywords.contains text

def lexer_init (source : List Char) : lexer_t where
  rest := source
  pos := 0
  line := 1
  column := 1
  at_line_start := true
  pending_dedents := 0
  indents := []

/-- `source[pos + offset]`. -/
def lexer_peek (l : lexer_t) (offset : ℕ) : Char := l.rest.getD offset '\x00'

def lexer_advance (l : lexer_t) : lexer_t :=
  match l.rest with
  | [] => l
  | c :: rest =>
    if c = '\x00' then l
    else if c = '\n' then
      { l with rest := rest, pos := l.pos + 1, line := l.line + 1, column := 1, at_line_start := true }
    else { l with rest := rest, pos := l.pos + 1, column := l.column + 1 }

def lexer_make_token (type : token_type_t) (text : String) (line column : ℕ) : token_t :=
  ⟨type, text, line, column⟩

/-! ## Loops over characters

Each iteration advances, so what is left of the source bounds their number. -/

/-- `while (p(peek)) advance`. -/
def lexer_skip (p : Char → Bool) : ℕ → lexer_t → lexer_t
  | 0, l => l
  | fuel + 1, l => if p (lexer_peek l 0) then lexer_skip p fuel (lexer_advance l) else l

def is_space (c : Char) : Bool := c == ' ' || c == '\t'

/-- The loop that measures the indentation. -/
def lexer_indent : ℕ → ℕ → lexer_t → ℕ × lexer_t
  | 0, indent, l => (indent, l)
  | fuel + 1, indent, l =>
    if is_space (lexer_peek l 0) then
      lexer_indent fuel (indent + if lexer_peek l 0 = '\t' then 4 else 1) (lexer_advance l)
    else (indent, l)

/-- `while (p(peek)) { if (n + 1 >= sizeof(text)) break; text[n++] = peek; advance; }` -/
def lexer_take (p : Char → Bool) : ℕ → List Char → lexer_t → List Char × lexer_t
  | 0, text, l => (text, l)
  | fuel + 1, text, l =>
    if p (lexer_peek l 0) ∧ text.length + 1 < LEX_TOKEN_TEXT then
      lexer_take p fuel (text ++ [lexer_peek l 0]) (lexer_advance l)
    else (text, l)

/-- `if (n + 1 < sizeof(text)) { text[n++] = peek; advance; }` -/
def lexer_push (r : List Char × lexer_t) : List Char × lexer_t :=
  if r.1.length + 1 < LEX_TOKEN_TEXT then
    (r.1 ++ [lexer_peek r.2 0], lexer_advance r.2)
  else r

/-- The loop of `lexer_read_quoted`: the text, or `none` where it returns 0. -/
def lexer_quoted (quote : Char) : ℕ → List Char → lexer_t → Option (List Char) × lexer_t
  | 0, _, l => (none, l)
  | fuel + 1, text, l =>
    let c := lexer_peek l 0
    if c ≠ '\x00' ∧ c ≠ quote then
      if c = '\n' then (none, l)
      else if c = '\\' ∧ lexer_peek l 1 ≠ '\x00' then
        if text.length + 2 ≥ LEX_TOKEN_TEXT then (none, l)
        else
          let l' := lexer_advance l
          lexer_quoted quote fuel (text ++ [c, lexer_peek l' 0]) (lexer_advance l')
      else if text.length + 1 ≥ LEX_TOKEN_TEXT then (none, l)
      else lexer_quoted quote fuel (text ++ [c]) (lexer_advance l)
    else if c ≠ quote then (none, l)
    else (some text, lexer_advance l)

def lexer_read_quoted (l : lexer_t) (quote : Char) : Option (List Char) × lexer_t :=
  lexer_quoted quote (l.rest.length + 1) [] (lexer_advance l)

/-! ## `lexer_next` -/

/-- How a part of `lexer_next` ends: with a token, with the recursive call, or by going on. -/
inductive scan_t where
  | emit (token : token_t) (l : lexer_t)
  | again (l : lexer_t)
  | proceed (l : lexer_t)

def not_eol (c : Char) : Bool := c != '\x00' && c != '\n'

/-- Skip to the end of the line or of the source. -/
def lexer_skip_comment (l : lexer_t) : lexer_t := lexer_skip not_eol l.rest.length l

/-- `while (indent_top > 0 && indent < indent_stack[indent_top])`: close the deeper levels. -/
def lexer_dedent (indent : ℕ) : List ℕ → ℕ → List ℕ × ℕ
  | [], pending => ([], pending)
  | top :: indents, pending =>
    if indent < top then lexer_dedent indent indents (pending + 1) else (top :: indents, pending)

/-- The part under `if (lexer->at_line_start)`. -/
def lexer_line_start (l : lexer_t) : scan_t :=
  let (indent, l) := lexer_indent l.rest.length 0 l
  let first := lexer_peek l 0
  if first = '#' then .again (lexer_skip_comment l)
  else if first = '\n' then
    .emit (lexer_make_token .TOK_NEWLINE "\\n" l.line l.column) (lexer_advance l)
  else
    let current := l.indents.headD 0
    if current < indent then
      if l.indents.length + 1 ≥ MAX_INDENTS then
        .emit (lexer_make_token .TOK_ERROR "<indent-too-deep>" l.line l.column) l
      else
        .emit (lexer_make_token .TOK_INDENT "" l.line 1)
          { l with indents := indent :: l.indents, at_line_start := false }
    else if indent < current then
      let (indents, pending) := lexer_dedent indent l.indents l.pending_dedents
      let l := { l with indents := indents, pending_dedents := pending }
      if indent ≠ indents.headD 0 then
        .emit (lexer_make_token .TOK_ERROR "<invalid-indent>" l.line l.column) l
      else if 0 < pending then
        .emit (lexer_make_token .TOK_DEDENT "" l.line 1)
          { l with at_line_start := false, pending_dedents := pending - 1 }
      else .proceed { l with at_line_start := false }
    else .proceed { l with at_line_start := false }

/-- `while (isdigit(peek)) ...` -/
def lexer_digits (r : List Char × lexer_t) : List Char × lexer_t :=
  lexer_take Char.isDigit r.2.rest.length r.1 r.2

/-- The point and the digits behind it, unless the number started with a point. -/
def lexer_fraction (is_float : Bool) (r : List Char × lexer_t) : Bool × List Char × lexer_t :=
  if lexer_peek r.2 0 = '.' ∧ ¬is_float then (true, lexer_digits (lexer_push r)) else (is_float, r)

/-- The sign of an exponent. -/
def lexer_sign (r : List Char × lexer_t) : List Char × lexer_t :=
  if lexer_peek r.2 0 = '+' ∨ lexer_peek r.2 0 = '-' then lexer_push r else r

def lexer_exponent (is_float : Bool) (r : List Char × lexer_t) : Bool × List Char × lexer_t :=
  if lexer_peek r.2 0 = 'e' ∨ lexer_peek r.2 0 = 'E' then
    (true, lexer_digits (lexer_sign (lexer_push r)))
  else (is_float, r)

/-- Digits, fraction and exponent of a number: whether it is a float, and its text. Of a
number that starts with its point nothing is taken: the text is empty, and the tokenizer stays
where it is. -/
def lexer_number (l : lexer_t) : Bool × List Char × lexer_t :=
  let (is_float, r) := lexer_fraction (lexer_peek l 0 == '.') (lexer_digits ([], l))
  lexer_exponent is_float r

/-- The characters of the operator or delimiter that starts with `c`. -/
def lexer_operator (c next third : Char) : List Char :=
  let twin := (c = '*' ∧ next = '*') ∨ (c = '/' ∧ next = '/') ∨ (c = '<' ∧ next = '<')
    ∨ (c = '>' ∧ next = '>')
  if twin ∧ third = '=' then [c, next, '=']
  else if c ∈ ['=', '!', '<', '>', '+', '-', '*', '/', '%', '&', '|', '^', '@'] ∧ next = '=' then
    [c, '=']
  else if twin ∨ (c = '-' ∧ next = '>') ∨ (c = '=' ∧ next = '>') then [c, next]
  else [c]

def lexer_read_name (l : lexer_t) : token_t × lexer_t :=
  let r := lexer_take lexer_is_identifier_char l.rest.length [] l
  let text := String.ofList r.1
  (lexer_make_token (if lexer_is_keyword text then .TOK_KEYWORD else .TOK_IDENTIFIER) text
    l.line l.column, r.2)

def lexer_read_number (l : lexer_t) : token_t × lexer_t :=
  let (is_float, text, l') := lexer_number l
  (lexer_make_token (if is_float then .TOK_FLOAT else .TOK_INTEGER) (String.ofList text)
    l.line l.column, l')

def lexer_read_string (l : lexer_t) : token_t × lexer_t :=
  match lexer_read_quoted l (lexer_peek l 0) with
  | (some text, l') => (lexer_make_token .TOK_STRING (String.ofList text) l.line l.column, l')
  | (none, l') => (lexer_make_token .TOK_ERROR "<invalid-string>" l.line l.column, l')

/-- `if (b) lexer_advance(lexer);` -/
def lexer_advance_if (b : Bool) (l : lexer_t) : lexer_t := if b then lexer_advance l else l

def lexer_read_operator (l : lexer_t) : token_t × lexer_t :=
  let c := lexer_peek l 0
  let text := lexer_operator c (lexer_peek l 1) (lexer_peek l 2)
  let type := if "()[]{}:,.;".toList.contains c then .TOK_DELIMITER else .TOK_OPERATOR
  (lexer_make_token type (String.ofList text) l.line l.column,
    lexer_advance_if (3 ≤ text.length) (lexer_advance_if (2 ≤ text.length) (lexer_advance l)))

/-- The part of `lexer_next` behind the indentation. -/
def lexer_scan (l : lexer_t) : scan_t :=
  let l := lexer_skip (fun c => is_space c || c == '\r') l.rest.length l
  let c := lexer_peek l 0
  if c = '\x00' then
    match l.indents with
    | _ :: indents =>
      .emit (lexer_make_token .TOK_DEDENT "" l.line l.column) { l with indents := indents }
    | [] => .emit (lexer_make_token .TOK_EOF "" l.line l.column) l
  else if c = '#' then .again (lexer_skip_comment l)
  else if c = '\n' then
    .emit (lexer_make_token .TOK_NEWLINE "\\n" l.line l.column)
      { lexer_advance l with at_line_start := true }
  else if lexer_is_identifier_start c then
    .emit (lexer_read_name l).1 (lexer_read_name l).2
  else if c.isDigit ∨ (c = '.' ∧ (lexer_peek l 1).isDigit) then
    .emit (lexer_read_number l).1 (lexer_read_number l).2
  else if c = '\'' ∨ c = '"' then .emit (lexer_read_string l).1 (lexer_read_string l).2
  else .emit (lexer_read_operator l).1 (lexer_read_operator l).2

def lexer_next : ℕ → lexer_t → token_t × lexer_t
  | 0, l => (lexer_make_token .TOK_EOF "" l.line l.column, l)
  | fuel + 1, l =>
    if 0 < l.pending_dedents then
      (lexer_make_token .TOK_DEDENT "" l.line l.column,
        { l with pending_dedents := l.pending_dedents - 1 })
    else
      match (if l.at_line_start then lexer_line_start l else .proceed l) with
      | .emit token l => (token, l)
      | .again l => lexer_next fuel l
      | .proceed l =>
        match lexer_scan l with
        | .emit token l => (token, l)
        | .again l => lexer_next fuel l
        | .proceed l => lexer_next fuel l

/-! ## Progress -/

/-- What a tokenizer has left to do. An open indentation is worth one token. -/
def lexer_measure (l : lexer_t) : ℕ := 2 * l.rest.length + l.indents.length + l.pending_dedents

/-- The tokens that may be repeated for ever: the end, an error, and the number that starts
with its point. -/
def token_t.stuck (t : token_t) : Bool :=
  t.type = .TOK_EOF ∨ t.type = .TOK_ERROR ∨ (t.type = .TOK_FLOAT ∧ t.text = "")

/-- `l'` is `l` with part of the source taken. -/
structure Takes (l l' : lexer_t) : Prop where
  rest : l'.rest.length ≤ l.rest.length
  indents : l'.indents = l.indents
  pending : l'.pending_dedents = l.pending_dedents

theorem Takes.refl (l : lexer_t) : Takes l l := ⟨le_rfl, rfl, rfl⟩

theorem Takes.trans {l l' l'' : lexer_t} (h : Takes l l') (h' : Takes l' l'') : Takes l l'' :=
  ⟨h'.rest.trans h.rest, h'.indents.trans h.indents, h'.pending.trans h.pending⟩

theorem Takes.measure_le {l l' : lexer_t} (h : Takes l l') : lexer_measure l' ≤ lexer_measure l := by
  have hrest := h.rest
  rw [lexer_measure, lexer_measure, h.indents, h.pending]
  omega

theorem lexer_advance_takes (l : lexer_t) : Takes l (lexer_advance l) := by
  unfold lexer_advance
  split
  · exact Takes.refl l
  · next c rest h =>
      split_ifs
      · exact Takes.refl l
      · exact ⟨by simp [h], rfl, rfl⟩
      · exact ⟨by simp [h], rfl, rfl⟩

/-- A character that is there is taken. -/
theorem lexer_advance_lt {l : lexer_t} (h : lexer_peek l 0 ≠ '\x00') :
    (lexer_advance l).rest.length < l.rest.length := by
  unfold lexer_peek at h
  unfold lexer_advance
  split
  · next hrest =>
      rw [hrest] at h
      exact absurd rfl h
  · next c rest hrest =>
      rw [hrest] at h
      have hc : ¬c = '\x00' := h
      rw [if_neg hc]
      split_ifs <;> simp [hrest]

theorem lexer_skip_takes (p : Char → Bool) (fuel : ℕ) (l : lexer_t) :
    Takes l (lexer_skip p fuel l) := by
  induction fuel generalizing l with
  | zero => exact Takes.refl l
  | succ fuel ih =>
      rw [lexer_skip]
      split_ifs
      · exact (lexer_advance_takes l).trans (ih _)
      · exact Takes.refl l

theorem lexer_indent_takes (fuel indent : ℕ) (l : lexer_t) :
    Takes l (lexer_indent fuel indent l).2 := by
  induction fuel generalizing indent l with
  | zero => exact Takes.refl l
  | succ fuel ih =>
      rw [lexer_indent]
      by_cases hsp : is_space (lexer_peek l 0) = true
      · rw [if_pos hsp]
        exact (lexer_advance_takes l).trans (ih _ _)
      · rw [if_neg hsp]
        exact Takes.refl l

/-- Indentation is made of characters. -/
theorem lexer_indent_lt (fuel : ℕ) (l : lexer_t) (h : 0 < (lexer_indent fuel 0 l).1) :
    (lexer_indent fuel 0 l).2.rest.length < l.rest.length := by
  cases fuel with
  | zero => exact absurd h (lt_irrefl 0)
  | succ fuel =>
      rw [lexer_indent] at h ⊢
      by_cases hsp : is_space (lexer_peek l 0) = true
      · rw [if_pos hsp]
        refine lt_of_le_of_lt (lexer_indent_takes _ _ _).rest (lexer_advance_lt ?_)
        intro hzero
        rw [hzero] at hsp
        exact absurd hsp (by decide)
      · rw [if_neg hsp] at h
        exact absurd h (lt_irrefl 0)

theorem lexer_take_takes (p : Char → Bool) (fuel : ℕ) (text : List Char) (l : lexer_t) :
    Takes l (lexer_take p fuel text l).2 := by
  induction fuel generalizing text l with
  | zero => exact Takes.refl l
  | succ fuel ih =>
      rw [lexer_take]
      split_ifs
      · exact (lexer_advance_takes l).trans (ih _ _)
      · exact Takes.refl l

/-- The first character of a name or of a number is taken. -/
theorem lexer_take_lt {p : Char → Bool} {l : lexer_t} (hp : p (lexer_peek l 0) = true)
    (hc : lexer_peek l 0 ≠ '\x00') :
    (lexer_take p l.rest.length [] l).2.rest.length < l.rest.length := by
  have hlt := lexer_advance_lt hc
  obtain ⟨n, hn⟩ := Nat.exists_eq_succ_of_ne_zero (by omega : l.rest.length ≠ 0)
  have hguard : p (lexer_peek l 0) = true ∧ ([] : List Char).length + 1 < LEX_TOKEN_TEXT :=
    ⟨hp, by decide⟩
  rw [hn, Nat.succ_eq_add_one, lexer_take, if_pos hguard]
  have htake := (lexer_take_takes p n ([] ++ [lexer_peek l 0]) (lexer_advance l)).rest
  omega

theorem lexer_push_takes (r : List Char × lexer_t) : Takes r.2 (lexer_push r).2 := by
  unfold lexer_push
  split_ifs
  · exact lexer_advance_takes r.2
  · exact Takes.refl r.2

theorem lexer_quoted_takes (quote : Char) (fuel : ℕ) (text : List Char) (l : lexer_t) :
    Takes l (lexer_quoted quote fuel text l).2 := by
  induction fuel generalizing text l with
  | zero => exact Takes.refl l
  | succ fuel ih =>
      rw [lexer_quoted]
      dsimp only
      split_ifs
      · exact Takes.refl l
      · exact Takes.refl l
      · exact (lexer_advance_takes l).trans ((lexer_advance_takes _).trans (ih _ _))
      · exact Takes.refl l
      · exact (lexer_advance_takes l).trans (ih _ _)
      · exact Takes.refl l
      · exact lexer_advance_takes l

/-- Closing levels only moves them to the pending ones. -/
theorem lexer_dedent_sum (indent : ℕ) (indents : List ℕ) (pending : ℕ) :
    (lexer_dedent indent indents pending).1.length + (lexer_dedent indent indents pending).2
      = indents.length + pending := by
  induction indents generalizing pending with
  | nil => rfl
  | cons top indents ih =>
      rw [lexer_dedent]
      split_ifs
      · rw [ih, List.length_cons]
        omega
      · rfl

theorem lexer_digits_takes (r : List Char × lexer_t) : Takes r.2 (lexer_digits r).2 :=
  lexer_take_takes _ _ _ _

theorem lexer_fraction_takes (is_float : Bool) (r : List Char × lexer_t) :
    Takes r.2 (lexer_fraction is_float r).2.2 := by
  unfold lexer_fraction
  split_ifs
  · exact (lexer_push_takes r).trans (lexer_digits_takes _)
  · exact Takes.refl _

theorem lexer_sign_takes (r : List Char × lexer_t) : Takes r.2 (lexer_sign r).2 := by
  unfold lexer_sign
  split_ifs
  · exact lexer_push_takes r
  · exact Takes.refl _

theorem lexer_exponent_takes (is_float : Bool) (r : List Char × lexer_t) :
    Takes r.2 (lexer_exponent is_float r).2.2 := by
  unfold lexer_exponent
  split_ifs
  · exact (lexer_push_takes r).trans ((lexer_sign_takes _).trans (lexer_digits_takes _))
  · exact Takes.refl _

theorem lexer_number_takes_digits (l : lexer_t) :
    Takes (lexer_digits ([], l)).2 (lexer_number l).2.2 :=
  (lexer_fraction_takes _ _).trans (lexer_exponent_takes _ _)

theorem lexer_number_takes (l : lexer_t) : Takes l (lexer_number l).2.2 :=
  (lexer_digits_takes ([], l)).trans (lexer_number_takes_digits l)

/-- A number that starts with a digit takes it. -/
theorem lexer_number_lt {l : lexer_t} (h : (lexer_peek l 0).isDigit = true) :
    (lexer_number l).2.2.rest.length < l.rest.length := by
  refine lt_of_le_of_lt (lexer_number_takes_digits l).rest (lexer_take_lt h ?_)
  intro hzero
  rw [hzero] at h
  exact absurd h (by decide)

/-- Of a number that starts with its point, the digits are none and the exponent is none. -/
theorem lexer_number_point {l : lexer_t} (h : lexer_peek l 0 = '.') :
    lexer_number l = (true, [], l) := by
  have hdigits : lexer_digits ([], l) = ([], l) := by
    unfold lexer_digits
    cases hn : l.rest.length with
    | zero => rfl
    | succ n =>
        rw [lexer_take, h, if_neg (fun hd => absurd hd.1 (by decide))]
  have hpoint : (lexer_peek l 0 == '.') = true := by
    rw [h]
    rfl
  unfold lexer_number
  rw [hdigits, hpoint]
  simp [lexer_fraction, lexer_exponent, h]

/-- A comment takes at least its `#`. -/
theorem lexer_skip_comment_lt {l : lexer_t} (h : lexer_peek l 0 = '#') :
    (lexer_skip_comment l).rest.length < l.rest.length := by
  have hlt := lexer_advance_lt (l := l) (by rw [h]; decide)
  obtain ⟨n, hn⟩ := Nat.exists_eq_succ_of_ne_zero (by omega : l.rest.length ≠ 0)
  have hguard : not_eol (lexer_peek l 0) = true := by
    rw [h]
    decide
  unfold lexer_skip_comment
  rw [hn, Nat.succ_eq_add_one, lexer_skip, if_pos hguard]
  have hrest := (lexer_skip_takes not_eol n (lexer_advance l)).rest
  omega

/-- What an ended scan took: at least something, unless the token is `stuck`. -/
def Progress (l : lexer_t) (token : token_t) (l' : lexer_t) : Prop :=
  lexer_measure l' ≤ lexer_measure l
    ∧ (token.stuck = false → lexer_measure l' < lexer_measure l)

theorem Progress.of_lt {l l' : lexer_t} {token : token_t}
    (h : lexer_measure l' < lexer_measure l) : Progress l token l' :=
  ⟨h.le, fun _ => h⟩

/-- Characters were taken. -/
theorem Takes.progress {l l' : lexer_t} (h : Takes l l') (hlt : l'.rest.length < l.rest.length)
    (token : token_t) : Progress l token l' := by
  refine Progress.of_lt ?_
  rw [lexer_measure, lexer_measure, h.indents, h.pending]
  omega

/-- What a part of `lexer_next` leaves. -/
def scan_t.Advances (l : lexer_t) : scan_t → Prop
  | .emit token l' => Progress l token l'
  | .again l' => Takes l l' ∧ l'.rest.length < l.rest.length
  | .proceed l' => lexer_measure l' ≤ lexer_measure l ∧ l'.rest.length ≤ l.rest.length

theorem lexer_line_start_advances (l : lexer_t) : (lexer_line_start l).Advances l := by
  have htakes := lexer_indent_takes l.rest.length 0 l
  have hlt := lexer_indent_lt l.rest.length l
  unfold lexer_line_start
  rcases hindent : lexer_indent l.rest.length 0 l with ⟨indent, l1⟩
  rw [hindent] at htakes hlt
  have hm := htakes.measure_le
  dsimp only at htakes hlt ⊢
  -- comment, newline, end, deeper, less deep, and the same level
  split_ifs with h1 h2 h3 h4 h5 h6 h7
  · exact ⟨htakes.trans (lexer_skip_takes _ _ _),
      (lexer_skip_comment_lt h1).trans_le htakes.rest⟩
  · have hadv := lexer_advance_lt (l := l1) (by rw [h2]; decide)
    exact (htakes.trans (lexer_advance_takes l1)).progress (lt_of_lt_of_le hadv htakes.rest) _
  · exact ⟨hm, fun h => absurd h (by simp [token_t.stuck, lexer_make_token])⟩
  · -- an opened level is paid for by the characters of the indentation
    have hchars := hlt (by omega)
    refine Progress.of_lt ?_
    have hind := htakes.indents
    have hpend := htakes.pending
    simp only [lexer_measure, List.length_cons, hind, hpend]
    omega
  · have hsum := lexer_dedent_sum indent l1.indents l1.pending_dedents
    refine ⟨?_, fun h => absurd h (by simp [token_t.stuck, lexer_make_token])⟩
    simp only [lexer_measure] at hm ⊢
    omega
  · have hsum := lexer_dedent_sum indent l1.indents l1.pending_dedents
    refine Progress.of_lt ?_
    simp only [lexer_measure] at hm ⊢
    omega
  · have hsum := lexer_dedent_sum indent l1.indents l1.pending_dedents
    refine ⟨?_, htakes.rest⟩
    simp only [lexer_measure] at hm ⊢
    omega
  · exact ⟨hm, htakes.rest⟩

theorem lexer_start_advances (l : lexer_t) :
    (if l.at_line_start then lexer_line_start l else .proceed l).Advances l := by
  split_ifs
  · exact lexer_line_start_advances l
  · exact ⟨le_rfl, le_rfl⟩

theorem lexer_read_name_progress {l : lexer_t} (h : lexer_is_identifier_start (lexer_peek l 0)) :
    Progress l (lexer_read_name l).1 (lexer_read_name l).2 := by
  refine (lexer_take_takes _ _ _ _).progress (lexer_take_lt ?_ ?_) _
  · unfold lexer_is_identifier_start at h
    unfold lexer_is_identifier_char Char.isAlphanum
    rcases (Bool.or_eq_true _ _).mp h with h | h <;> simp [h]
  · intro hzero
    rw [hzero] at h
    exact absurd h (by decide)

theorem lexer_read_number_progress {l : lexer_t}
    (h : (lexer_peek l 0).isDigit = true ∨ lexer_peek l 0 = '.') :
    Progress l (lexer_read_number l).1 (lexer_read_number l).2 := by
  rcases h with hdigit | hpoint
  · have htakes := lexer_number_takes l
    have hlt := lexer_number_lt hdigit
    unfold lexer_read_number
    generalize lexer_number l = r at htakes hlt ⊢
    exact htakes.progress hlt _
  · unfold lexer_read_number
    rw [lexer_number_point hpoint]
    exact ⟨le_rfl, fun h => absurd h (by simp [token_t.stuck, lexer_make_token])⟩

theorem lexer_read_string_progress {l : lexer_t} (h : lexer_peek l 0 ≠ '\x00') :
    Progress l (lexer_read_string l).1 (lexer_read_string l).2 := by
  have hquoted := lexer_quoted_takes (lexer_peek l 0) (l.rest.length + 1) [] (lexer_advance l)
  unfold lexer_read_string lexer_read_quoted
  generalize lexer_quoted (lexer_peek l 0) (l.rest.length + 1) [] (lexer_advance l) = r at hquoted ⊢
  have hall := (lexer_advance_takes l).trans hquoted
  have hlt := lt_of_le_of_lt hquoted.rest (lexer_advance_lt h)
  rcases r with ⟨_ | text, l2⟩
  · exact hall.progress hlt _
  · exact hall.progress hlt _

theorem lexer_advance_if_takes (b : Bool) (l : lexer_t) : Takes l (lexer_advance_if b l) := by
  unfold lexer_advance_if
  split_ifs
  · exact lexer_advance_takes l
  · exact Takes.refl l

theorem lexer_read_operator_progress {l : lexer_t} (h : lexer_peek l 0 ≠ '\x00') :
    Progress l (lexer_read_operator l).1 (lexer_read_operator l).2 := by
  have hafter := (lexer_advance_if_takes (2 ≤ (lexer_operator (lexer_peek l 0) (lexer_peek l 1)
    (lexer_peek l 2)).length) (lexer_advance l)).trans (lexer_advance_if_takes
      (3 ≤ (lexer_operator (lexer_peek l 0) (lexer_peek l 1) (lexer_peek l 2)).length) _)
  exact ((lexer_advance_takes l).trans hafter).progress
    (lt_of_le_of_lt hafter.rest (lexer_advance_lt h)) _

theorem lexer_scan_advances (l : lexer_t) : (lexer_scan l).Advances l := by
  unfold lexer_scan
  have htakes := lexer_skip_takes (fun c => is_space c || c == '\r') l.rest.length l
  generalize lexer_skip (fun c => is_space c || c == '\r') l.rest.length l = l1 at htakes
  have hm := htakes.measure_le
  -- every other token takes the character that was found
  have hstep : ∀ r : token_t × lexer_t, Progress l1 r.1 r.2 → Progress l r.1 r.2 :=
    fun r h => ⟨h.1.trans hm, fun hs => (h.2 hs).trans_le hm⟩
  dsimp only
  by_cases hend : lexer_peek l1 0 = '\x00'
  · rw [if_pos hend]
    cases hind : l1.indents with
    | nil => exact ⟨hm, fun h => absurd h (by simp [token_t.stuck, lexer_make_token])⟩
    | cons top indents =>
        refine Progress.of_lt ?_
        simp only [lexer_measure, hind, List.length_cons] at hm ⊢
        omega
  rw [if_neg hend]
  split_ifs with h1 h2 h3 h4 h5
  · exact ⟨htakes.trans (lexer_skip_takes _ _ _),
      (lexer_skip_comment_lt h1).trans_le htakes.rest⟩
  · have htake := lexer_advance_takes l1
    have hnew : Takes l1 { lexer_advance l1 with at_line_start := true } :=
      ⟨htake.rest, htake.indents, htake.pending⟩
    exact hstep (_, _) (hnew.progress (lexer_advance_lt hend) _)
  · exact hstep _ (lexer_read_name_progress h3)
  · exact hstep _ (lexer_read_number_progress (h4.imp id And.left))
  · exact hstep _ (lexer_read_string_progress hend)
  · exact hstep _ (lexer_read_operator_progress hend)

/-- **Progress.** A token takes something, unless it is `stuck`. -/
theorem lexer_next_measure (fuel : ℕ) (l : lexer_t) :
    Progress l (lexer_next fuel l).1 (lexer_next fuel l).2 := by
  induction fuel generalizing l with
  | zero => exact ⟨le_rfl, fun h => absurd h (by simp [lexer_next, token_t.stuck, lexer_make_token])⟩
  | succ fuel ih =>
      have hagain : ∀ l2, lexer_measure l2 ≤ lexer_measure l →
          Progress l (lexer_next fuel l2).1 (lexer_next fuel l2).2 := by
        intro l2 hle
        obtain ⟨h1, h2⟩ := ih l2
        exact ⟨h1.trans hle, fun h => (h2 h).trans_le hle⟩
      rw [lexer_next]
      -- a pending dedent is counted in the measure
      by_cases hpend : 0 < l.pending_dedents
      · rw [if_pos hpend]
        refine Progress.of_lt ?_
        simp only [lexer_measure]
        omega
      rw [if_neg hpend]
      have hstart := lexer_start_advances l
      generalize (if l.at_line_start then lexer_line_start l else scan_t.proceed l) = first
        at hstart ⊢
      rcases first with ⟨token, l2⟩ | l2 | l2
      · exact hstart
      · exact hagain l2 hstart.1.measure_le
      · have hle : lexer_measure l2 ≤ lexer_measure l := hstart.1
        have hscan := lexer_scan_advances l2
        dsimp only
        generalize lexer_scan l2 = second at hscan ⊢
        rcases second with ⟨token, l3⟩ | l3 | l3
        · exact ⟨hscan.1.trans hle, fun h => (hscan.2 h).trans_le hle⟩
        · exact hagain l3 (hscan.1.measure_le.trans hle)
        · exact hagain l3 (hscan.1.trans hle)

/-- `lexer_scan` ends the call. -/
theorem lexer_scan_ends (l l' : lexer_t) : lexer_scan l ≠ .proceed l' := by
  unfold lexer_scan
  dsimp only
  split_ifs
  · split <;> exact scan_t.noConfusion
  all_goals exact scan_t.noConfusion

/-- The count of characters is never reached: more of them change nothing. -/
theorem lexer_next_fuel (n m : ℕ) (l : lexer_t) (hn : l.rest.length < n) (hm : l.rest.length < m) :
    lexer_next n l = lexer_next m l := by
  induction n generalizing m l with
  | zero => omega
  | succ n ih =>
      obtain ⟨m, rfl⟩ := Nat.exists_eq_succ_of_ne_zero (by omega : m ≠ 0)
      have hagain : ∀ l2 : lexer_t, l2.rest.length < l.rest.length →
          lexer_next n l2 = lexer_next m l2 :=
        fun l2 hlt => ih m l2 (by omega) (by omega)
      rw [Nat.succ_eq_add_one, lexer_next, lexer_next]
      by_cases hpend : 0 < l.pending_dedents
      · rw [if_pos hpend, if_pos hpend]
      rw [if_neg hpend, if_neg hpend]
      have hstart := lexer_start_advances l
      generalize (if l.at_line_start then lexer_line_start l else scan_t.proceed l) = first
        at hstart ⊢
      rcases first with ⟨token, l2⟩ | l2 | l2
      · rfl
      · exact hagain l2 hstart.2
      · have hscan := lexer_scan_advances l2
        have hends := lexer_scan_ends l2
        dsimp only
        generalize lexer_scan l2 = second at hscan hends ⊢
        rcases second with ⟨token, l3⟩ | l3 | l3
        · rfl
        · exact hagain l3 (hscan.2.trans_le hstart.2)
        · exact absurd rfl (hends l3)

end SysInC.Pythont
