/-
Functions of the C library on strings, which are lists of bytes without the NUL.
-/
import Mathlib.Data.List.Basic
import Mathlib.Tactic.Common

set_option autoImplicit false

namespace SysInC.CText

/-- The bytes of a string literal. -/
def literal (s : String) : List UInt8 := s.toList.map fun c => UInt8.ofNat c.toNat

/-- What `snprintf(buf, size, …)` leaves in `buf` of what it prints. -/
def snprintf (size : ℕ) (printed : List UInt8) : List UInt8 := printed.take (size - 1)

/-- In the C locale. -/
def tolower (c : UInt8) : UInt8 := if 65 ≤ c ∧ c ≤ 90 then c + 32 else c

/-- `strcasecmp(a, b) == 0` -/
def strcaseeq (a b : List UInt8) : Bool := a.map tolower == b.map tolower

/-- The index of the last `c`. -/
def strrchr (s : List UInt8) (c : UInt8) : Option ℕ :=
  if c ∈ s then some (s.length - 1 - s.reverse.idxOf c) else none

/-- The index of the first occurrence of `needle`. -/
def strstr (needle : List UInt8) : List UInt8 → Option ℕ
  | [] => if needle = [] then some 0 else none
  | c :: s => if needle.isPrefixOf (c :: s) then some 0 else (strstr needle s).map (· + 1)

/-- The same, whatever the case of the letters. -/
def strcasestr (needle s : List UInt8) : Option ℕ := strstr (needle.map tolower) (s.map tolower)

/-- `fgets(line, size, fp)`: what is read of a file, and the rest of it. -/
def fgets (size : ℕ) (file : List UInt8) : List UInt8 × List UInt8 :=
  let n := min (size - 1) ((file.takeWhile (· ≠ 10)).length + 1)
  (file.take n, file.drop n)

/-! ## Searching -/

variable {needle s t : List UInt8} {k : ℕ}

section

-- the equations of this are made here, and not by each proof anew
attribute [local simp] strstr

end

/-- Nothing is found exactly where nothing is. -/
theorem strstr_eq_none_iff : strstr needle s = none ↔ ¬ needle <:+: s := by
  induction s with
  | nil => simp [strstr]
  | cons c s ih =>
    rw [strstr, List.infix_cons_iff]
    by_cases here : needle.isPrefixOf (c :: s) = true
    · rw [if_pos here]
      simp [List.isPrefixOf_iff_prefix.mp here]
    · rw [if_neg here, Option.map_eq_none_iff, ih]
      simp [mt List.isPrefixOf_iff_prefix.mpr here]

/-- What is found is all inside of the text. -/
theorem strstr_add_le (found : strstr needle s = some k) : k + needle.length ≤ s.length := by
  induction s generalizing k with
  | nil =>
    rw [strstr] at found
    split at found
    · next empty => simp [← Option.some.inj found, empty]
    · exact nomatch found
  | cons c s ih =>
    rw [strstr] at found
    by_cases here : needle.isPrefixOf (c :: s) = true
    · rw [if_pos here] at found
      rw [← Option.some.inj found, Nat.zero_add]
      exact (List.isPrefixOf_iff_prefix.mp here).length_le
    · rw [if_neg here] at found
      obtain ⟨j, hj, rfl⟩ := Option.map_eq_some_iff.mp found
      have behind := ih hj
      rw [List.length_cons]
      omega

/-- It is found at the same place when the text goes on. -/
theorem strstr_append (found : strstr needle s = some k) (t : List UInt8) :
    strstr needle (s ++ t) = some k := by
  induction s generalizing k with
  | nil =>
    rw [strstr] at found
    split at found
    · next empty =>
      obtain rfl := Option.some.inj found
      cases t <;> simp [strstr, empty]
    · exact nomatch found
  | cons c s ih =>
    rw [strstr] at found
    rw [List.cons_append, strstr]
    by_cases here : needle.isPrefixOf (c :: s) = true
    · rw [if_pos here] at found
      have still : needle <+: c :: (s ++ t) :=
        (List.isPrefixOf_iff_prefix.mp here).trans (List.prefix_append (c :: s) t)
      rw [if_pos (List.isPrefixOf_iff_prefix.mpr still), found]
    · rw [if_neg here] at found
      obtain ⟨j, hj, rfl⟩ := Option.map_eq_some_iff.mp found
      have later := strstr_add_le hj
      -- What starts here would end in front of where the first one ends.
      have nowhere : ¬ needle.isPrefixOf (c :: (s ++ t)) = true := by
        intro starts
        refine here (List.isPrefixOf_iff_prefix.mpr ?_)
        refine List.prefix_of_prefix_length_le (List.isPrefixOf_iff_prefix.mp starts)
          (List.prefix_append (c :: s) t) ?_
        rw [List.length_cons]
        omega
      rw [if_neg nowhere, ih hj, Option.map_some]

end SysInC.CText
