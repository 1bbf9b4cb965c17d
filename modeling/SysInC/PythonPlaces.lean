/-
Where the characters of a Python program stand: in its code, in a comment or in a literal.

A literal has one quote or three. A backslash in it takes the character behind it along. The end
of the line ends a literal of one quote that is not closed.
-/
import Mathlib.Data.List.Basic
import Mathlib.Tactic.Common

set_option autoImplicit false

namespace SysInC.PythonPlaces

inductive place where
  | code
  | comment
  | literal
  deriving DecidableEq, Repr

/-- What has been read so far. -/
inductive mode where
  | code
  | comment
  /-- A quote that opens a literal. -/
  | one (q : Char)
  /-- An empty literal, or two quotes of the three that open a long one. -/
  | two (q : Char)
  | short (q : Char)
  | short_escape (q : Char)
  /-- A long literal, with the quotes that may be the first ones of its end. -/
  | long (q : Char) (closing : ℕ)
  | long_escape (q : Char)
  deriving DecidableEq, Repr

def from_code (c : Char) : mode × place :=
  if c = '"' ∨ c = '\'' then (.one c, .literal)
  else if c = '#' then (.comment, .comment)
  else (.code, .code)

def in_short (q c : Char) : mode × place :=
  if c = '\\' then (.short_escape q, .literal)
  else if c = q then (.code, .literal)
  else if c = '\n' then (.code, .code)
  else (.short q, .literal)

def in_long (q : Char) (closing : ℕ) (c : Char) : mode × place :=
  if c = '\\' then (.long_escape q, .literal)
  else if c = q then (if closing = 2 then .code else .long q (closing + 1), .literal)
  else (.long q 0, .literal)

/-- The place of a character, and what has been read with it. -/
def read : mode → Char → mode × place
  | .code, c => from_code c
  | .comment, c => if c = '\n' then (.code, .code) else (.comment, .comment)
  | .one q, c => if c = q then (.two q, .literal) else in_short q c
  | .two q, c => if c = q then (.long q 0, .literal) else from_code c
  | .short q, c => in_short q c
  | .short_escape q, _ => (.short q, .literal)
  | .long q closing, c => in_long q closing c
  | .long_escape q, _ => (.long q 0, .literal)

/-- The characters with their places. -/
def places : mode → List Char → List (Char × place)
  | _, [] => []
  | m, c :: s => (c, (read m c).2) :: places (read m c).1 s

/-- What has been read at the end of a text. -/
def mode_behind (m : mode) (s : List Char) : mode := s.foldl (fun m c => (read m c).1) m

/-- The places leave the text as it is. -/
@[simp] theorem map_fst_places (m : mode) (s : List Char) : (places m s).map Prod.fst = s := by
  induction s generalizing m with
  | nil => rfl
  | cons c s ih => exact congrArg (List.cons c) (ih _)

/-! ## Brackets -/

def opens (c : Char) : Bool := c = '(' ∨ c = '[' ∨ c = '{'

def closes (c : Char) : Bool := c = ')' ∨ c = ']' ∨ c = '}'

/-- The brackets that are open behind a character. -/
def depth_behind (m : mode) (depth : ℕ) (c : Char) : ℕ :=
  if (read m c).2 ≠ .code then depth
  else if opens c then depth + 1
  else if closes c then depth - 1
  else depth

/-- What stands in front of the bracket that closes, and what is left from the bracket on. -/
def inside (close : Char) : mode → ℕ → List Char → List Char × List Char
  | _, _, [] => ([], [])
  | m, depth, c :: s =>
    if (read m c).2 = .code ∧ c = close ∧ depth = 0 then ([], c :: s)
    else
      let rest := inside close (read m c).1 (depth_behind m depth c) s
      (c :: rest.1, rest.2)

theorem inside_append (close : Char) (m : mode) (depth : ℕ) (s : List Char) :
    (inside close m depth s).1 ++ (inside close m depth s).2 = s := by
  induction s generalizing m depth with
  | nil => rfl
  | cons c s ih =>
      rw [inside]
      split
      · rfl
      · exact congrArg (List.cons c) (ih _ _)

/-- What is left begins with the bracket. -/
theorem inside_closed (close : Char) (m : mode) (depth : ℕ) (s : List Char) :
    (inside close m depth s).2 = [] ∨ (inside close m depth s).2.head? = some close := by
  induction s generalizing m depth with
  | nil => exact Or.inl rfl
  | cons c s ih =>
      rw [inside]
      split
      case isTrue hc => exact Or.inr (congrArg some hc.2.1)
      case isFalse => exact ih _ _

end SysInC.PythonPlaces
