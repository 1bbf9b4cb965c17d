/-
`pythont -e`: the statements of an inline program on the old path of `src/pythont/pythont.c`.

The path cuts the text with `strtok_r` at every semicolon and every newline, and a separator in a
literal cuts the literal. `inline_code_iff` says that the statements are those of the program
exactly where no separator stands in a literal.
-/
import SysInC.PythonPlaces
import SysInC.Tokens

set_option autoImplicit false

namespace SysInC.PythontInline

open PythonPlaces
open Tokens

/-! ## The source -/

def delim : List Char := [';', '\n']

/-- The calls `transpile_line(line, 0)` for what is left of `code_copy`. -/
def transpile_calls (rest : List Char) : List (List Char × ℕ) :=
  match _h : strtok_r rest delim with
  | none => []
  | some (line, rest) => (line, 0) :: transpile_calls rest
termination_by rest.length
decreasing_by exact (pieces_of_strtok_r _h).2

def inline_code (code : List Char) : List (List Char × ℕ) := transpile_calls code

/-! ## The statements of a program -/

/-- A separator outside literals. -/
def separates (c : Char × place) : Bool := delim.contains c.1 && c.2 != .literal

/-- The text cut at the separators outside literals. What is empty is no statement. -/
def statements (code : List Char) : List (List Char) :=
  (pieces separates (places .code code)).map (List.map Prod.fst)

/-- No separator stands in a literal. -/
def no_hidden_separator (code : List Char) : Prop :=
  ∀ c ∈ places .code code, c.1 ∈ delim → c.2 ≠ .literal

instance (code : List Char) : Decidable (no_hidden_separator code) :=
  inferInstanceAs (Decidable (∀ c ∈ places .code code, c.1 ∈ delim → c.2 ≠ .literal))

/-! ## The calls -/

theorem transpile_calls_of_none {rest : List Char} (h : strtok_r rest delim = none) :
    transpile_calls rest = [] := by
  rw [transpile_calls]
  split
  case h_1 => rfl
  case h_2 line behind hsome => cases h.symm.trans hsome

theorem transpile_calls_of_some {rest line behind : List Char}
    (h : strtok_r rest delim = some (line, behind)) :
    transpile_calls rest = (line, 0) :: transpile_calls behind := by
  rw [transpile_calls]
  split
  case h_1 hnone => cases h.symm.trans hnone
  case h_2 hsome =>
      obtain ⟨rfl, rfl⟩ := Prod.mk.inj (Option.some.inj (h.symm.trans hsome))
      rfl

/-- The calls are for the pieces between the separators, wherever these stand. -/
theorem transpile_calls_eq (rest : List Char) :
    transpile_calls rest = (pieces (delim.contains ·) rest).map (·, 0) := by
  induction rest using transpile_calls.induct with
  | case1 rest hnone =>
      rw [transpile_calls_of_none hnone, pieces_of_strtok_r_none hnone]
      rfl
  | case2 rest line behind hsome ih =>
      rw [transpile_calls_of_some hsome, (pieces_of_strtok_r hsome).1, ih]
      rfl

theorem inline_code_eq_iff (code : List Char) (lines : List (List Char)) :
    inline_code code = lines.map (·, 0) ↔ pieces (delim.contains ·) code = lines := by
  unfold inline_code
  rw [transpile_calls_eq]
  exact (List.map_injective_iff.mpr fun _ _ h => congrArg Prod.fst h).eq_iff

/-- The statements reach `transpile_line` as they stand exactly where no separator stands in a
literal. -/
theorem inline_code_iff (code : List Char) :
    inline_code code = (statements code).map (·, 0) ↔ no_hidden_separator code := by
  have hless : ∀ c : Char × place, separates c → delim.contains c.1 :=
    fun c hc => (Bool.and_eq_true_iff.mp hc).1
  have hpieces := pieces_map_iff hless (places .code code)
  rw [map_fst_places] at hpieces
  rw [inline_code_eq_iff]
  refine hpieces.trans (forall₂_congr fun c _ => ?_)
  -- a separator separates where it does not stand in a literal
  unfold separates
  by_cases hc : c.1 ∈ delim <;> simp [hc]

/-- `print("a;b")` -/
theorem string_is_cut : inline_code "print(\"a;b\")".toList
    ≠ (statements "print(\"a;b\")".toList).map (·, 0) := by
  rw [Ne, inline_code_eq_iff]
  decide

example : no_hidden_separator "x = 'it\\'s'; print(x) # it's; y".toList := by decide

end SysInC.PythontInline
