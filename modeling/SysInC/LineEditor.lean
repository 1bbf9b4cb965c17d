/-
A line that is edited: a text with a cursor in it, and the lines from before that it may be replaced
with.

The line that was being typed is put aside when the first of the earlier lines is called up, and
comes back behind the last of them.
-/
import Mathlib.Data.List.Basic

set_option autoImplicit false

namespace SysInC.LineEditor

variable {α : Type*}

/-! ## A text with a cursor -/

/-- The cursor stands in front of the `pos`-th of the text. -/
@[ext]
structure Line (α : Type*) where
  text : List α
  pos : ℕ
  pos_le : pos ≤ text.length

namespace Line

/-- A text with the cursor behind it. -/
def typed (text : List α) : Line α := ⟨text, text.length, Nat.le_refl _⟩

/-- A text is put in at the cursor, which comes to stand behind it. -/
def insert (l : Line α) (s : List α) : Line α where
  text := l.text.take l.pos ++ s ++ l.text.drop l.pos
  pos := l.pos + s.length
  pos_le := by
    have := l.pos_le
    simp only [List.length_append, List.length_take, List.length_drop]
    omega

/-- What stands in front of the cursor is taken out. -/
def backspace (l : Line α) : Line α where
  text := l.text.take (l.pos - 1) ++ l.text.drop l.pos
  pos := l.pos - 1
  pos_le := by
    have := l.pos_le
    simp only [List.length_append, List.length_take, List.length_drop]
    omega

def left (l : Line α) : Line α := ⟨l.text, l.pos - 1, Nat.le_trans (Nat.sub_le _ _) l.pos_le⟩

def right (l : Line α) : Line α :=
  if h : l.pos < l.text.length then ⟨l.text, l.pos + 1, h⟩ else l

def home (l : Line α) : Line α := ⟨l.text, 0, Nat.zero_le _⟩

theorem insert_length (l : Line α) (s : List α) :
    (l.insert s).text.length = l.text.length + s.length := by
  have := l.pos_le
  simp only [insert, List.length_append, List.length_take, List.length_drop]
  omega

/-- Two texts that are put in one behind the other. -/
theorem insert_insert (l : Line α) (s t : List α) : (l.insert s).insert t = l.insert (s ++ t) := by
  have hfront : (l.text.take l.pos).length = l.pos := by
    rw [List.length_take, Nat.min_eq_left l.pos_le]
  have hlen : (l.text.take l.pos ++ s).length = l.pos + s.length := by
    rw [List.length_append, hfront]
  apply Line.ext
  · unfold insert
    dsimp only
    rw [← hlen, List.take_left, List.drop_left]
    simp only [List.append_assoc]
  · simp only [insert, List.length_append, Nat.add_assoc]

end Line

/-! ## The lines from before -/

/-- A line that is edited, the index of the line that it was called up from, and the line put
aside. The index behind the last is that of the line itself. -/
structure Session (α : Type*) where
  line : Line α
  at_index : ℕ
  aside : List α

namespace Session

variable (entries : List (List α))

/-- An empty line. -/
def start : Session α := ⟨Line.typed [], entries.length, []⟩

/-- The line before. -/
def up (s : Session α) : Session α :=
  if 0 < s.at_index then
    ⟨Line.typed (entries.getD (s.at_index - 1) []), s.at_index - 1,
      if s.at_index = entries.length then s.line.text else s.aside⟩
  else s

/-- The line behind. -/
def down (s : Session α) : Session α :=
  if s.at_index < entries.length then
    ⟨Line.typed (if s.at_index + 1 = entries.length then s.aside
      else entries.getD (s.at_index + 1) []), s.at_index + 1, s.aside⟩
  else s

end Session

end SysInC.LineEditor
