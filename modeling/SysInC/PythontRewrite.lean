/-
The rewriting of expressions in the line translator of `src/pythont/pythont.c`
(`replace_operators`): Python's operators, constants and built-in names become those of C.

The text is scanned from left to right, and at each place outside of quotes the words of a table
are looked for (`rewrite`). What is left is written to a buffer of 4096 bytes; where that does not
suffice the text stays as it was (`replace_operators_eq`). Characters stand for bytes.
-/
import Mathlib.Algebra.Order.Ring.Nat
import Mathlib.Data.List.Basic
import Mathlib.Tactic.Common

set_option autoImplicit false

namespace SysInC.PythontRewrite

/-! ## Symbols -/

inductive var_type_t where
  | VAR_INT
  | VAR_FLOAT
  | VAR_STR
  | VAR_LIST
  | VAR_DICT
  | VAR_OBJ
  | VAR_FILE
  deriving DecidableEq

structure symbol_t where
  name : List Char
  type : var_type_t
  class_type : List Char

def find_symbol (symbols : List symbol_t) (name : List Char) : Option symbol_t :=
  symbols.find? fun s => s.name = name

/-! ## The words -/

/-- What may follow a word: anything, no letter or digit, or no underscore either. -/
inductive boundary_t where
  | any
  | not_alnum
  | not_word
  deriving DecidableEq

/-- `expr[i + len]` -/
def boundary_t.allows (b : boundary_t) (next : Char) : Bool :=
  match b with
  | .any => true
  | .not_alnum => !next.isAlphanum
  | .not_word => !next.isAlphanum && next != '_'

/-- A text that is looked for, and what stands for it. -/
structure word_t where
  text : String
  boundary : boundary_t
  fragment : String
  deriving DecidableEq

/-- Those that are tried in front of `sum(` and `len(`. -/
def words_before : List word_t :=
  [⟨" and ", .any, " && "⟩, ⟨" or ", .any, " || "⟩, ⟨"not ", .any, "!"⟩,
    ⟨"True", .not_word, "1"⟩, ⟨"False", .not_word, "0"⟩, ⟨"None", .not_alnum, "NULL"⟩,
    ⟨"min(", .any, "py_min("⟩, ⟨"max(", .any, "py_max("⟩, ⟨"abs(", .any, "py_abs("⟩,
    ⟨"int(", .any, "py_int("⟩, ⟨"str(", .any, "py_str("⟩, ⟨"float(", .any, "py_float("⟩,
    ⟨"round(", .any, "py_round("⟩, ⟨"bin(", .any, "py_bin("⟩, ⟨"hex(", .any, "py_hex("⟩,
    ⟨"oct(", .any, "py_oct("⟩, ⟨"chr(", .any, "py_chr("⟩, ⟨"ord(", .any, "py_ord("⟩,
    ⟨"input(", .any, "py_input("⟩]

/-- Those that are tried behind them. -/
def words_behind : List word_t :=
  [⟨"math.sqrt(", .any, "sqrt("⟩, ⟨"math.sin(", .any, "sin("⟩, ⟨"math.cos(", .any, "cos("⟩,
    ⟨"math.floor(", .any, "floor("⟩, ⟨"math.ceil(", .any, "ceil("⟩, ⟨"math.pow(", .any, "pow("⟩,
    ⟨"math.pi", .not_word, "3.14159265358979323846"⟩,
    ⟨"math.e", .not_word, "2.71828182845904523536"⟩, ⟨"//", .any, "/"⟩,
    ⟨"self.", .any, "self->"⟩]

/-- `strncmp(expr + i, "…", n) == 0`, and what is asked of the character behind it. -/
def word_t.here (w : word_t) (s : List Char) : Bool :=
  w.text.toList.isPrefixOf s && w.boundary.allows (s.getD w.text.toList.length '\x00')

/-! ## `replace_operators` -/

/-- `sizeof(target)` -/
def sizeof_target : ℕ := 64

/-- The argument of `sum(` and `len(`, up to the first parenthesis. -/
def target (s : List Char) : List Char := (s.takeWhile (· ≠ ')')).take (sizeof_target - 1)

/-- The argument is closed. -/
def closed (s : List Char) : Bool := s.getD (target s).length '\x00' = ')'

def sum_call (target : List Char) : List Char :=
  "py_sum(".toList ++ target ++ ", len_".toList ++ target ++ ")".toList

def len_call (symbols : List symbol_t) (target : List Char) : List Char :=
  match (find_symbol symbols target).map symbol_t.type with
  | some .VAR_LIST => "len_".toList ++ target
  | some .VAR_DICT => "(int64_t)".toList ++ target ++ ".count".toList
  | _ => "(int64_t)strlen(".toList ++ target ++ ")".toList

/-- What is written for the text here, and how much of it that stands for; `none` where the
character is copied. An argument that is not closed makes it drop the first character. -/
def rewrite (symbols : List symbol_t) (s : List Char) : Option (List Char × ℕ) :=
  match words_before.find? (word_t.here · s) with
  | some w => some (w.fragment.toList, w.text.toList.length)
  | none =>
    let behind := s.drop 4
    if "sum(".toList.isPrefixOf s then
      if closed behind then some (sum_call (target behind), 4 + (target behind).length + 1)
      else some ([], 1)
    else if "len(".toList.isPrefixOf s then
      if closed behind then some (len_call symbols (target behind), 4 + (target behind).length + 1)
      else some ([], 1)
    else
      match words_behind.find? (word_t.here · s) with
      | some w => some (w.fragment.toList, w.text.toList.length)
      | none => none

def is_quote (c : Char) : Bool := c = '"' ∨ c = '\''

/-- `in_string` and `quote` behind a quote. -/
def toggle (quote : Option Char) (c : Char) : Option Char :=
  match quote with
  | none => some c
  | some q => if q = c then none else some q

/-- `sizeof(tmp)` -/
def sizeof_tmp : ℕ := 4096

/-- `append_fragment`; `none` where there is no room. -/
def append_fragment (tmp src : List Char) : Option (List Char) :=
  if sizeof_tmp ≤ tmp.length + src.length then none else some (tmp ++ src)

/-- The loop. `prev` is the character in front, and `tmp` what has been written. -/
def replace_loop (symbols : List symbol_t) :
    ℕ → Char → Option Char → List Char → List Char → Option (List Char)
  | 0, _, _, _, tmp => some tmp
  | _ + 1, _, _, [], tmp => some tmp
  | fuel + 1, prev, quote, c :: s, tmp =>
    if is_quote c ∧ prev ≠ '\\' then do
      let tmp ← append_fragment tmp [c]
      replace_loop symbols fuel c (toggle quote c) s tmp
    else if quote.isSome then do
      let tmp ← append_fragment tmp [c]
      replace_loop symbols fuel c quote s tmp
    else
      match rewrite symbols (c :: s) with
      | some ([], n) =>
        replace_loop symbols fuel ((c :: s).getD (n - 1) c) none ((c :: s).drop n) tmp
      | some (fragment, n) => do
        let tmp ← append_fragment tmp fragment
        replace_loop symbols fuel ((c :: s).getD (n - 1) c) none ((c :: s).drop n) tmp
      | none => do
        let tmp ← append_fragment tmp [c]
        replace_loop symbols fuel c none s tmp

/-- What is left in `expr`. -/
def replace_operators (symbols : List symbol_t) (expr : List Char) : List Char :=
  (replace_loop symbols expr.length '\x00' none expr []).getD expr

/-! ## What is written -/

/-- The text that the loop writes, whatever room there is. -/
def scan (symbols : List symbol_t) : ℕ → Char → Option Char → List Char → List Char
  | 0, _, _, _ => []
  | _ + 1, _, _, [] => []
  | fuel + 1, prev, quote, c :: s =>
    if is_quote c ∧ prev ≠ '\\' then c :: scan symbols fuel c (toggle quote c) s
    else if quote.isSome then c :: scan symbols fuel c quote s
    else
      match rewrite symbols (c :: s) with
      | some (fragment, n) =>
        fragment ++ scan symbols fuel ((c :: s).getD (n - 1) c) none ((c :: s).drop n)
      | none => c :: scan symbols fuel c none s

def rewritten (symbols : List symbol_t) (expr : List Char) : List Char :=
  scan symbols expr.length '\x00' none expr

theorem replace_loop_eq (symbols : List symbol_t) (fuel : ℕ) (prev : Char) (quote : Option Char)
    (s tmp : List Char) (htmp : tmp.length < sizeof_tmp) :
    replace_loop symbols fuel prev quote s tmp
      = if sizeof_tmp ≤ (tmp ++ scan symbols fuel prev quote s).length then none
        else some (tmp ++ scan symbols fuel prev quote s) := by
  induction fuel generalizing prev quote s tmp with
  | zero => rw [replace_loop, scan, List.append_nil, if_neg (Nat.not_le_of_lt htmp)]
  | succ fuel ih =>
      cases s with
      | nil => rw [replace_loop, scan, List.append_nil, if_neg (Nat.not_le_of_lt htmp)]
      | cons c s =>
          -- a fragment that finds room leaves less than the whole buffer
          have hstep : ∀ (src : List Char) (prev : Char) (quote : Option Char) (s : List Char),
              (append_fragment tmp src >>= replace_loop symbols fuel prev quote s)
                = if sizeof_tmp ≤ (tmp ++ (src ++ scan symbols fuel prev quote s)).length then none
                  else some (tmp ++ (src ++ scan symbols fuel prev quote s)) := by
            intro src prev quote s
            rw [← List.append_assoc, append_fragment, ← List.length_append]
            by_cases hroom : (tmp ++ src).length < sizeof_tmp
            · rw [if_neg (Nat.not_le_of_lt hroom)]
              exact ih prev quote s _ hroom
            · have hfull := Nat.le_of_not_lt hroom
              rw [if_pos hfull, if_pos]
              · rfl
              · rw [List.length_append]
                exact hfull.trans (Nat.le_add_right _ _)
          rw [replace_loop, scan]
          split
          · exact hstep [c] _ _ _
          · split
            · exact hstep [c] _ _ _
            · cases hrw : rewrite symbols (c :: s) with
              | none => exact hstep [c] _ _ _
              | some r =>
                  obtain ⟨fragment, n⟩ := r
                  cases fragment with
                  | nil =>
                      dsimp only
                      exact ih _ _ _ _ htmp
                  | cons d fragment => exact hstep (d :: fragment) _ _ _

/-- Without room the text stays as it is. -/
theorem replace_operators_eq (symbols : List symbol_t) (expr : List Char) :
    replace_operators symbols expr = if sizeof_tmp ≤ (rewritten symbols expr).length then expr
      else rewritten symbols expr := by
  rw [replace_operators, replace_loop_eq _ _ _ _ _ _ (by decide), List.nil_append, ← rewritten]
  split <;> rfl

end SysInC.PythontRewrite
