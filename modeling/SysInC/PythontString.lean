/-
String literals: what a literal of Python denotes, and what C makes of the literal that
`ast_cgen_string_literal` emits for its token.

The tokenizer keeps the text between the quotes as it stands in the source, escape sequences
included, and the emitter writes a literal that denotes this text, character for character. So the
two literals denote the same as long as Python has nothing to replace.
-/
import SysInC.PythontText

set_option autoImplicit false

namespace SysInC.Pythont

/-! ## Literals of Python -/

/-- What the character behind a backslash stands for. -/
def escape_value : Char → Option Char
  | 'n' => some '\n'
  | 't' => some '\t'
  | 'r' => some '\r'
  | '\\' => some '\\'
  | '\'' => some '\''
  | '"' => some '"'
  | _ => none

/-- The characters behind a backslash that Python replaces together with it. -/
def py_escapes : List Char := "\n\\'\"abfnrtvx01234567NuU".toList

inductive py_piece where
  | plain (c : Char)
  | escape (c : Char)
  | kept (c : Char)

def py_piece.text : py_piece → List Char
  | .plain c => [c]
  | .escape c => ['\\', c]
  | .kept c => ['\\', c]

/-- A backslash in front of any other character stays. -/
def py_piece.value : py_piece → List Char
  | .plain c => [c]
  | .escape c => (escape_value c).toList
  | .kept c => ['\\', c]

def py_piece.Valid (quote : Char) : py_piece → Prop
  | .plain c => c ≠ '\\' ∧ c ≠ quote ∧ c ≠ '\n' ∧ c ≠ '\x00'
  | .escape c => (escape_value c).isSome = true
  | .kept c => c ∉ py_escapes ∧ c ≠ '\x00'

/-- A literal within one line: plain characters, the escape sequences of `escape_value`, and
backslashes that escape nothing. -/
structure py_literal where
  quote : Char
  pieces : List py_piece
  quote_valid : quote = '\'' ∨ quote = '"'
  pieces_valid : ∀ piece ∈ pieces, piece.Valid quote

def py_literal.text (literal : py_literal) : List Char := literal.pieces.flatMap py_piece.text

def py_literal.value (literal : py_literal) : List Char := literal.pieces.flatMap py_piece.value

/-! ## Literals of C -/

def c_escape_value : Char → Option Char
  | 'n' => some '\n'
  | 't' => some '\t'
  | 'r' => some '\r'
  | 'a' => some '\x07'
  | 'b' => some '\x08'
  | 'f' => some '\x0c'
  | 'v' => some '\x0b'
  | '\\' => some '\\'
  | '\'' => some '\''
  | '"' => some '"'
  | '?' => some '?'
  | _ => none

/-- The characters up to the closing quote. Escapes with digits are left out. -/
def c_string_chars : List Char → Option (List Char)
  | [] => none
  | ['"'] => some []
  | '"' :: _ :: _ => none
  | '\n' :: _ => none
  | ['\\'] => none
  | '\\' :: c :: cs =>
    (c_escape_value c).bind fun value => (c_string_chars cs).map (value :: ·)
  | c :: cs => (c_string_chars cs).map (c :: ·)

/-- What a string literal denotes, without its terminating zero. -/
def c_string_value : List Char → Option (List Char)
  | '"' :: cs => c_string_chars cs
  | _ => none

/-! ## The emitted literal denotes the text of the token -/

theorem c_string_chars_plain {c : Char} (quote : c ≠ '"') (line : c ≠ '\n') (slash : c ≠ '\\')
    (cs : List Char) : c_string_chars (c :: cs) = (c_string_chars cs).map (c :: ·) := by
  rw [c_string_chars]
  all_goals simp_all

/-- What is written for a character is read as this character. -/
theorem c_string_chars_escape (c : Char) (cs : List Char) :
    c_string_chars ((ast_cgen_escape c).toList ++ cs) = (c_string_chars cs).map (c :: ·) := by
  unfold ast_cgen_escape
  by_cases slash : c = '\\'
  · subst slash
    rfl
  by_cases quote : c = '"'
  · subst quote
    rfl
  rw [if_neg (by tauto)]
  by_cases line : c = '\n'
  · subst line
    rfl
  by_cases cr : c = '\r'
  · subst cr
    rfl
  by_cases tab : c = '\t'
  · subst tab
    rfl
  rw [if_neg line, if_neg cr, if_neg tab, Char.toString, String.toList_singleton]
  exact c_string_chars_plain quote line slash cs

theorem c_string_chars_text (cs : List Char) :
    c_string_chars ((chars_text cs).toList ++ ['"']) = some cs := by
  induction cs with
  | nil => rfl
  | cons c cs ih =>
    rw [chars_text, String.toList_append, List.append_assoc, c_string_chars_escape, ih]
    rfl

theorem string_text_denotes (text : String) :
    c_string_value (string_text text).toList = some text.toList := by
  rw [string_text, String.toList_append, String.toList_append, List.append_assoc]
  exact c_string_chars_text text.toList

/-! ## The token has the text of the literal -/

theorem lexer_advance_cons {l : lexer_t} {c : Char} {rest : List Char} (here : l.rest = c :: rest)
    (there : c ≠ '\x00') : (lexer_advance l).rest = rest := by
  unfold lexer_advance
  rw [here]
  dsimp only
  rw [if_neg there]
  split_ifs <;> rfl

theorem lexer_peek_cons {l : lexer_t} {c : Char} {rest : List Char} (here : l.rest = c :: rest) :
    lexer_peek l 0 = c := by
  rw [lexer_peek, here]
  rfl

theorem escape_ne_zero {c : Char} (h : (escape_value c).isSome = true) : c ≠ '\x00' := by
  rintro rfl
  exact absurd h (by decide)

/-- A step of the loop over a plain character. -/
theorem lexer_quoted_plain {quote c : Char} {rest : List Char} {l : lexer_t}
    (here : l.rest = c :: rest) (valid : (py_piece.plain c).Valid quote) (fuel : ℕ)
    (before : List Char) :
    lexer_quoted quote (fuel + 1) before l =
      if before.length + 1 ≥ LEX_TOKEN_TEXT then (none, l)
      else lexer_quoted quote fuel (before ++ [c]) (lexer_advance l) := by
  obtain ⟨slash, other, line, zero⟩ := valid
  rw [lexer_quoted]
  dsimp only
  rw [lexer_peek_cons here, if_pos ⟨zero, other⟩, if_neg line, if_neg fun h => slash h.1]

/-- A step of the loop over a backslash and the character behind it. -/
theorem lexer_quoted_slash {quote c : Char} {rest : List Char} {l : lexer_t}
    (quote_valid : quote = '\'' ∨ quote = '"') (here : l.rest = '\\' :: c :: rest)
    (there : c ≠ '\x00') (fuel : ℕ) (before : List Char) :
    lexer_quoted quote (fuel + 1) before l =
      if before.length + 2 ≥ LEX_TOKEN_TEXT then (none, l)
      else lexer_quoted quote fuel (before ++ ['\\', c]) (lexer_advance (lexer_advance l)) := by
  have slash : '\\' ≠ quote := by
    rcases quote_valid with rfl | rfl <;> decide
  have second : lexer_peek l 1 ≠ '\x00' := by
    rw [lexer_peek, here]
    exact there
  have behind := lexer_advance_cons here (by decide)
  rw [lexer_quoted]
  dsimp only
  rw [lexer_peek_cons here, lexer_peek_cons behind, if_pos ⟨by decide, slash⟩, if_neg (by decide),
    if_pos ⟨rfl, second⟩]

/-- The loop behind the opening quote takes the pieces as they are. -/
theorem lexer_quoted_text {quote : Char} (quote_valid : quote = '\'' ∨ quote = '"')
    (pieces : List py_piece) (valid : ∀ piece ∈ pieces, piece.Valid quote) (fuel : ℕ)
    {before text rest : List Char} {l l' : lexer_t}
    (here : l.rest = pieces.flatMap py_piece.text ++ quote :: rest)
    (accepted : lexer_quoted quote fuel before l = (some text, l')) :
    text = before ++ pieces.flatMap py_piece.text := by
  induction pieces generalizing fuel before l with
  | nil =>
    cases fuel with
    | zero => cases accepted
    | succ fuel =>
      have closing : lexer_peek l 0 = quote := lexer_peek_cons here
      rw [lexer_quoted] at accepted
      dsimp only at accepted
      rw [closing, if_neg fun h => h.2 rfl, if_neg fun h => h rfl] at accepted
      cases accepted
      exact (List.append_nil _).symm
  | cons piece pieces ih =>
    obtain ⟨first, others⟩ := List.forall_mem_cons.mp valid
    cases fuel with
    | zero => cases accepted
    | succ fuel =>
      have slashed : ∀ c, piece.text = ['\\', c] → c ≠ '\x00' →
          text = before ++ (piece :: pieces).flatMap py_piece.text := by
        intro c two there
        rw [List.flatMap_cons, two, List.append_assoc] at here
        rw [lexer_quoted_slash quote_valid here there] at accepted
        split_ifs at accepted
        · cases accepted
        · have behind := lexer_advance_cons (lexer_advance_cons here (by decide)) there
          rw [ih others fuel behind accepted, List.flatMap_cons, two, List.append_assoc]
      cases piece with
      | plain c =>
        rw [List.flatMap_cons, py_piece.text, List.append_assoc] at here
        rw [lexer_quoted_plain here first] at accepted
        split_ifs at accepted
        · cases accepted
        · have behind := lexer_advance_cons here first.2.2.2
          rw [ih others fuel behind accepted, List.flatMap_cons, py_piece.text, List.append_assoc]
      | escape c => exact slashed c rfl (escape_ne_zero first)
      | kept c => exact slashed c rfl first.2

theorem lexer_read_quoted_text (literal : py_literal) {l l' : lexer_t} {text rest : List Char}
    (here : l.rest = literal.quote :: (literal.text ++ literal.quote :: rest))
    (accepted : lexer_read_quoted l literal.quote = (some text, l')) : text = literal.text := by
  have opening : literal.quote ≠ '\x00' := by
    rcases literal.quote_valid with h | h <;> rw [h] <;> decide
  exact lexer_quoted_text literal.quote_valid literal.pieces literal.pieces_valid _
    (lexer_advance_cons here opening) accepted

/-! ## What the two literals denote -/

theorem length_escape_value {c : Char} (h : (escape_value c).isSome = true) :
    (escape_value c).toList.length = 1 := by
  obtain ⟨value, hvalue⟩ := Option.isSome_iff_exists.mp h
  rw [hvalue]
  rfl

/-- An escape sequence is shorter by one in the value. -/
theorem length_value {quote : Char} {piece : py_piece} (valid : piece.Valid quote) :
    piece.value.length ≤ piece.text.length ∧
      ((∃ c, piece = .escape c) → piece.value.length < piece.text.length) := by
  cases piece with
  | plain c => exact ⟨le_rfl, by simp⟩
  | escape c =>
    have one := length_escape_value valid
    have two : (py_piece.escape c).text.length = 2 := rfl
    exact ⟨by rw [py_piece.value, one, two]; decide, fun _ => by rw [py_piece.value, one, two]; decide⟩
  | kept c => exact ⟨le_rfl, by simp⟩

theorem length_values {quote : Char} (pieces : List py_piece)
    (valid : ∀ piece ∈ pieces, piece.Valid quote) :
    (pieces.flatMap py_piece.value).length ≤ (pieces.flatMap py_piece.text).length ∧
      ((∃ c, .escape c ∈ pieces) →
        (pieces.flatMap py_piece.value).length < (pieces.flatMap py_piece.text).length) := by
  induction pieces with
  | nil => exact ⟨le_rfl, by simp⟩
  | cons piece pieces ih =>
    obtain ⟨first, others⟩ := List.forall_mem_cons.mp valid
    obtain ⟨piece_le, piece_lt⟩ := length_value first
    obtain ⟨pieces_le, pieces_lt⟩ := ih others
    rw [List.flatMap_cons, List.flatMap_cons, List.length_append, List.length_append]
    refine ⟨Nat.add_le_add piece_le pieces_le, ?_⟩
    rintro ⟨c, here⟩
    rcases List.mem_cons.mp here with rfl | here
    · exact Nat.add_lt_add_of_lt_of_le (piece_lt ⟨c, rfl⟩) pieces_le
    · exact Nat.add_lt_add_of_le_of_lt piece_le (pieces_lt ⟨c, here⟩)

theorem value_eq_text {piece : py_piece} (h : ∀ c, piece ≠ .escape c) :
    piece.value = piece.text := by
  cases piece with
  | plain c => rfl
  | escape c => exact absurd rfl (h c)
  | kept c => rfl

/-- Python replaces something wherever there is an escape sequence. -/
theorem text_eq_value_iff (literal : py_literal) :
    literal.text = literal.value ↔ ∀ c, .escape c ∉ literal.pieces := by
  constructor
  · intro same c here
    have less := (length_values literal.pieces literal.pieces_valid).2 ⟨c, here⟩
    exact absurd (congrArg List.length same).symm less.ne
  · intro none
    refine List.flatMap_congr fun piece here => (value_eq_text ?_).symm
    rintro c rfl
    exact none c here

/-- **String literals.** The emitted literal denotes what the literal of the source does exactly
when there is no escape sequence in it. -/
theorem string_kept_iff (literal : py_literal) {l l' : lexer_t} {text rest : List Char}
    (here : l.rest = literal.quote :: (literal.text ++ literal.quote :: rest))
    (accepted : lexer_read_quoted l literal.quote = (some text, l')) :
    c_string_value (string_text (String.ofList text)).toList = some literal.value ↔
      ∀ c, .escape c ∉ literal.pieces := by
  rw [string_text_denotes, String.toList_ofList, lexer_read_quoted_text literal here accepted,
    Option.some_inj, text_eq_value_iff]

/-- `'a'` -/
def plain_literal : py_literal where
  quote := '\''
  pieces := [.plain 'a']
  quote_valid := Or.inl rfl
  pieces_valid := by simp [py_piece.Valid]

/-- `'a'`, in a source of its own. -/
theorem string_kept_plain :
    c_string_value (string_text (String.ofList ['a'])).toList = some plain_literal.value ↔
      ∀ c, .escape c ∉ plain_literal.pieces :=
  @string_kept_iff plain_literal (lexer_init "'a'".toList) _ _ [] rfl rfl

/-- `'\n'` -/
def newline_literal : py_literal where
  quote := '\''
  pieces := [.escape 'n']
  quote_valid := Or.inl rfl
  pieces_valid := by simp [py_piece.Valid, escape_value]

/-- For `'\n'` a backslash and an `n` are written. -/
theorem newline_not_kept :
    ¬ ∀ (literal : py_literal) (l l' : lexer_t) (text rest : List Char),
      l.rest = literal.quote :: (literal.text ++ literal.quote :: rest) →
        lexer_read_quoted l literal.quote = (some text, l') →
          c_string_value (string_text (String.ofList text)).toList = some literal.value := by
  intro kept
  have same := kept newline_literal (lexer_init "'\\n'".toList) _ _ [] rfl rfl
  rw [string_text_denotes] at same
  exact absurd same (by decide)

end SysInC.Pythont
