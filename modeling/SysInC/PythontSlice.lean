/-
String slices: the call of `py_str_slice` that `src/pythont/pythont.c` writes for `s[a:b:c]`, and
what the runtime makes of it.

The translator passes the bounds on only where there are two colons, and puts 0 and 999999 for
those that are left out, whatever the sign of the step. The runtime has one case for `s[::-1]`, and
a buffer for 1023 characters. `slice_iff` says when the strings of a length are cut as in Python.
-/
import SysInC.Delimited
import SysInC.Progression
import SysInC.PythontForms

set_option autoImplicit false

namespace SysInC.PythontSlice

open Delimited Progression
open PythontForms
open PythontRewrite (symbol_t find_symbol)

/-! ## The source -/

/-- `s[i]` -/
def char_at (s : List Char) (i : ℤ) : Char := s.getD i.toNat '\x00'

def int64 (z : ℤ) : Prop := -2 ^ 63 ≤ z ∧ z < 2 ^ 63

instance (z : ℤ) : Decidable (int64 z) := inferInstanceAs (Decidable (_ ∧ _))

/-- The second `for` loop of `py_str_slice`; `none` where `i += step` overflows. -/
def slice_loop (s : List Char) (stop step : ℤ) : ℕ → ℤ → ℕ → Option (List Char)
  | 0, _, _ => some []
  | fuel + 1, i, pos =>
    if (if 0 < step then i < stop else stop < i) ∧ pos < 1023 then
      -- positions outside the string are passed over
    let copied := if 0 ≤ i ∧ i < s.length then [char_at s i] else []
      if int64 (i + step) then
        (slice_loop s stop step fuel (i + step) (pos + copied.length)).map (copied ++ ·)
      else none
    else some []

/-- The runtime definition, for a string that is no null pointer. -/
def py_str_slice (s : List Char) (start stop step : ℤ) : Option (List Char) :=
  let len : ℤ := s.length
  let step := if step = 0 then 1 else step
  -- the arguments that are written for `s[::-1]`
  if step = -1 ∧ start = 0 ∧ stop = 999999 then some (s.reverse.take 1023)
  else
    let start := if start < 0 then start + len else start
    let stop := if stop < 0 then stop + len else stop
    -- a start behind the string and an end in front of it stay
    let start := if start < 0 then 0 else start
    let stop := if len < stop then len else stop
    slice_loop s stop step (stop - start).natAbs start 0

/-- `a:b`, or `a:b:c`; a part that is left out is empty. -/
def slice_text (a b : List Char) (c : Option (List Char)) : List Char :=
  a ++ ':' :: b ++ (c.map (':' :: ·)).getD []

/-- The last three arguments of the call that is written for a slice with `rest` behind it, if
one is written. -/
def emitted (a b : List Char) (c : Option (List Char)) (rest : List Char) :
    Option (List Char × List Char × List Char) :=
  (copy_slice (slice_text a b c ++ ']' :: rest)).map fun p => slice_bounds p.1

/-- The call, where `value` says what an expression comes to. -/
def call (value : List Char → ℤ) (s : List Char)
    (args : Option (List Char × List Char × List Char)) : Option (List Char) :=
  args.bind fun p => py_str_slice s (value p.1) (value p.2.1) (value p.2.2)

/-! ## Python -/

/-- A bound counted from the end of the string if it is negative, and kept between `lo` and
`hi`. -/
def adjust (n : ℕ) (lo hi z : ℤ) : ℤ := max lo (min hi (if z < 0 then z + n else z))

/-- The positions of `s[start:stop:step]` in a string of `n` characters. -/
def python_run (n : ℕ) (start stop : Option ℤ) (step : ℤ) : Run :=
  if 0 < step then
    let first := (start.map (adjust n 0 n)).getD 0
    let last := (stop.map (adjust n 0 n)).getD n
    ⟨first, steps (last - first) step, step⟩
  else
    let first := (start.map (adjust n (-1) (n - 1))).getD (n - 1)
    let last := (stop.map (adjust n (-1) (n - 1))).getD (-1)
    ⟨first, steps (first - last) (-step), step⟩

/-- `s[start:stop:step]`; a step of 0 is an error. -/
def python_slice (s : List Char) (start stop step : Option ℤ) : Option (List Char) :=
  if step = some 0 then none
  else some ((python_run s.length start stop (step.getD 1)).numbers.map (char_at s))

/-- What a part of a slice comes to. -/
def part (value : List Char → ℤ) (text : List Char) : Option ℤ :=
  if text = [] then none else some (value text)

/-! ## The call that is written -/

/-- A string with a bracket behind it. -/
theorem form_slice {symbols : List symbol_t} {name : List Char} (s : List Char)
    (hname : type_of symbols name = some .VAR_STR) :
    form c_readers symbols name ('[' :: s)
      = (copy_slice s).map fun p => (.slice name p.1, p.2) := by
  have hstring : string_form c_readers symbols name ('[' :: s) = none := rfl
  have hdict : dict_form c_readers symbols name ('[' :: s) = none := if_pos (by rw [hname]; decide)
  have hobject : object_form c_readers symbols name ('[' :: s) = none := by
    unfold object_form
    cases find_symbol symbols name with
    | none => rfl
    | some sym => exact if_neg fun h => absurd (Option.some.inj h.2.1) (by decide)
  have hfile : file_form symbols name ('[' :: s) = none :=
    if_neg fun h => absurd (hname.symm.trans h.1) (by decide)
  have hindex : index_form c_readers symbols name ('[' :: s) = none :=
    if_neg fun h => absurd (hname.symm.trans h.1) (by decide)
  have hslice : slice_form c_readers symbols name ('[' :: s)
      = (copy_slice s).map fun p => (.slice name p.1, p.2) := if_pos ⟨hname, rfl⟩
  unfold form
  rw [hstring, hdict, hobject, hfile, hindex, hslice]
  rfl

theorem length_bound (default : String) (text : List Char) (h : default.length ≤ 31) :
    (bound default text).length ≤ 31 := by
  unfold bound
  split
  · exact (String.length_toList).trans_le h
  · simp [snprintf]

/-- The call is not cut. -/
theorem slice_call_text {name : List Char} (content : List Char)
    (hname : name.length < sizeof_ident) :
    (form_t.slice name content).text
      = ["py_str_slice(".toList, name, ", ".toList, (slice_bounds content).1, ", ".toList,
          (slice_bounds content).2.1, ", ".toList, (slice_bounds content).2.2,
          ")".toList].flatten := by
  have hbounds : (slice_bounds content).1.length ≤ 31 ∧ (slice_bounds content).2.1.length ≤ 31
      ∧ (slice_bounds content).2.2.length ≤ 31 := by
    unfold slice_bounds
    dsimp only
    split
    · exact ⟨length_bound _ _ (by decide), length_bound _ _ (by decide),
        length_bound _ _ (by decide)⟩
    · decide
  have htext : (form_t.slice name content).text
      = snprintf 512 ["py_str_slice(".toList, name, ", ".toList, (slice_bounds content).1,
          ", ".toList, (slice_bounds content).2.1, ", ".toList, (slice_bounds content).2.2,
          ")".toList] := rfl
  rw [htext]
  obtain ⟨hstart, hend, hstep⟩ := hbounds
  refine List.take_of_length_le ?_
  simp only [List.length_flatten, List.map_cons, List.map_nil, List.sum_cons, List.sum_nil]
  unfold sizeof_ident at hname
  have : "py_str_slice(".toList.length = 13 := rfl
  have : ", ".toList.length = 2 := rfl
  have : ")".toList.length = 1 := rfl
  omega

/-- The text that is appended for a slice. -/
theorem form_call {symbols : List symbol_t} {name : List Char} (a b : List Char)
    (c : Option (List Char)) (rest : List Char) (htype : type_of symbols name = some .VAR_STR)
    (hname : name.length < sizeof_ident) :
    (form c_readers symbols name ('[' :: (slice_text a b c ++ ']' :: rest))).map (·.1.text)
      = (emitted a b c rest).map fun args =>
          ["py_str_slice(".toList, name, ", ".toList, args.1, ", ".toList, args.2.1, ", ".toList,
            args.2.2, ")".toList].flatten := by
  rw [form_slice _ htype, emitted]
  cases copy_slice (slice_text a b c ++ ']' :: rest) with
  | none => rfl
  | some p => exact congrArg some (slice_call_text p.1 hname)

/-- Text in which neither a colon nor a closing bracket stands. -/
def plain (text : List Char) : Prop := ':' ∉ text ∧ ']' ∉ text

section Plain

variable {a b c : List Char} (rest : List Char)

theorem bound_eq (default : String) (h : a.length ≤ 31) :
    bound default a = if a = [] then default.toList else a := by
  unfold bound snprintf
  rw [List.flatten_singleton, List.take_of_length_le h]

theorem tail_dropWhile_take (p : Char → Bool) (s : List Char) (k : ℕ) :
    ((s.take k).dropWhile p).tail ⊆ (s.dropWhile p).tail := by
  induction s generalizing k with
  | nil => rw [List.take_nil]; exact List.Subset.refl _
  | cons x s ih =>
      cases k with
      | zero => exact List.nil_subset _
      | succ k =>
          rw [List.take_succ_cons]
          by_cases hx : p x
          · rw [List.dropWhile_cons_of_pos hx, List.dropWhile_cons_of_pos hx]
            exact ih k
          · rw [List.dropWhile_cons_of_neg hx, List.dropWhile_cons_of_neg hx]
            exact List.take_subset k s

/-- With two colons the bounds are passed on. -/
theorem emitted_two_colons (ha : plain a) (hb : plain b) (hc : plain c) (hal : a.length ≤ 31)
    (hbl : b.length ≤ 31) (hcl : c.length ≤ 31) :
    emitted a b (some c) rest
      = some (if a = [] then "0".toList else a, if b = [] then "999999".toList else b,
          if c = [] then "1".toList else c) := by
  have htext : slice_text a b (some c) = a ++ ':' :: (b ++ ':' :: c) := by simp [slice_text]
  have hclose : ']' ∉ slice_text a b (some c) := by
    rw [htext]
    simp [ha.2, hb.2, hc.2]
  have hcopy : copy_slice (slice_text a b (some c) ++ ']' :: rest)
      = some (slice_text a b (some c), ']' :: rest) := by
    unfold copy_slice
    rw [takeWhile_append_cons hclose, if_pos (by simp [slice_text]),
      List.take_of_length_le (by rw [htext]; simp; omega)]
    simp only [List.drop_left]
  have hfront := takeWhile_append_cons ha.1 (b ++ ':' :: c)
  have hmiddle := takeWhile_append_cons hb.1 c
  have hbehind : ((slice_text a b (some c)).dropWhile (· ≠ ':')).tail = b ++ ':' :: c := by
    rw [htext, dropWhile_append_cons ha.1, List.tail_cons]
  have hlast : ((b ++ ':' :: c).dropWhile (· ≠ ':')).tail = c := by
    rw [dropWhile_append_cons hb.1, List.tail_cons]
  unfold emitted
  rw [hcopy, Option.map_some, slice_bounds]
  simp only [hbehind]
  rw [if_pos (by simp), htext, hfront, hmiddle, hlast, bound_eq _ hal, bound_eq _ hbl,
    bound_eq _ hcl]

/-- With one colon they are not. -/
theorem emitted_one_colon (ha : plain a) (hb : plain b) :
    emitted a b none rest = some ("0".toList, "999999".toList, "1".toList) := by
  have htext : slice_text a b none = a ++ ':' :: b := List.append_nil _
  have hclose : ']' ∉ slice_text a b none := by
    rw [htext]
    simp [ha.2, hb.2]
  have hcopy : copy_slice (slice_text a b none ++ ']' :: rest)
      = some ((slice_text a b none).take 127,
          (slice_text a b none ++ ']' :: rest).drop ((slice_text a b none).take 127).length) := by
    unfold copy_slice
    rw [takeWhile_append_cons hclose, if_pos (by simp [slice_text])]
  have hbehind : ':' ∉ (((slice_text a b none).take 127).dropWhile (· ≠ ':')).tail := by
    have hmem : ':' ∉ ((slice_text a b none).dropWhile (· ≠ ':')).tail := by
      rw [htext, dropWhile_append_cons ha.1]
      exact hb.1
    exact fun h => hmem (tail_dropWhile_take _ _ 127 h)
  unfold emitted
  rw [hcopy, Option.map_some, slice_bounds]
  dsimp only
  rw [if_neg hbehind]

end Plain

/-! ## The positions that the runtime copies -/

/-- `start` and `stop` behind the adjustments of `py_str_slice`. -/
def c_start (n : ℕ) (start : ℤ) : ℤ := max 0 (if start < 0 then start + n else start)

def c_stop (n : ℕ) (stop : ℤ) : ℤ := min n (if stop < 0 then stop + n else stop)

/-- The positions from `i` on that lie in a string, where the step is negative. -/
def down (n : ℕ) (stop step i : ℤ) : Run :=
  let first := i - steps (i - (n - 1)) (-step) * -step
  ⟨first, steps (first - max stop (-1)) (-step), step⟩

/-- The turns of the loop from `i` on, where `room` characters fit in the buffer. -/
def turns (n : ℕ) (stop step i : ℤ) (room : ℕ) : ℕ :=
  if 0 < step then min room (steps (stop - i) step)
  else if room = 0 then 0
  else if room ≤ (down n stop step i).count then steps (i - (n - 1)) (-step) + room
  else steps (i - stop) (-step)

/-- The positions that are copied by the loop. -/
def loop_run (n : ℕ) (stop step i : ℤ) (room : ℕ) : Run :=
  if 0 < step then ⟨i, min room (steps (stop - i) step), step⟩
  else { down n stop step i with count := min room (down n stop step i).count }

/-- Every value that `i` takes is one of 64 bits. -/
def sums_fit (n : ℕ) (stop step i : ℤ) (room : ℕ) : Prop :=
  ∀ j ∈ progression (i + step) step (turns n stop step i room), int64 j

instance (n : ℕ) (stop step i : ℤ) (room : ℕ) : Decidable (sums_fit n stop step i room) :=
  inferInstanceAs (Decidable (∀ j ∈ progression _ _ _, int64 j))

/-- The one case that `py_str_slice` has for itself. -/
def reversed (start stop step : ℤ) : Prop := step = -1 ∧ start = 0 ∧ stop = 999999

instance (start stop step : ℤ) : Decidable (reversed start stop step) :=
  inferInstanceAs (Decidable (_ ∧ _))

/-- The positions that `py_str_slice` copies of a string of `n` characters. -/
def c_run (n : ℕ) (start stop step : ℤ) : Run :=
  if reversed start stop step then ⟨n - 1, min 1023 n, -1⟩
  else loop_run n (c_stop n stop) (if step = 0 then 1 else step) (c_start n start) 1023

def c_fits (n : ℕ) (start stop step : ℤ) : Prop :=
  reversed start stop step
    ∨ sums_fit n (c_stop n stop) (if step = 0 then 1 else step) (c_start n start) 1023

instance (n : ℕ) (start stop step : ℤ) : Decidable (c_fits n start stop step) :=
  inferInstanceAs (Decidable (_ ∨ _))

/-! ## The loop -/

section Loop

variable {s copied : List Char} {n fuel pos room room' : ℕ} {stop step i : ℤ}

/-- What the loop comes to: nothing where it overflows, and else the characters of its run. -/
def LoopEq (s : List Char) (stop step : ℤ) (fuel : ℕ) (i : ℤ) (pos room : ℕ) : Prop :=
  slice_loop s stop step fuel i pos
    = if sums_fit s.length stop step i room then
        some ((loop_run s.length stop step i room).numbers.map (char_at s))
      else none

/-- The loop ends. -/
theorem loop_stops (hstop : ¬ ((if 0 < step then i < stop else stop < i) ∧ pos < 1023))
    (hturns : turns s.length stop step i room = 0)
    (hcount : (loop_run s.length stop step i room).count = 0) :
    LoopEq s stop step fuel i pos room := by
  have hfit : sums_fit s.length stop step i room := by
    unfold sums_fit
    rw [hturns]
    exact fun j hj => absurd hj List.not_mem_nil
  unfold LoopEq Run.numbers
  rw [if_pos hfit, hcount]
  cases fuel with
  | zero => rfl
  | succ fuel => rw [slice_loop, if_neg hstop]; rfl

/-- The loop makes a turn. -/
theorem loop_turns (hgo : (if 0 < step then i < stop else stop < i) ∧ pos < 1023)
    (hcopied : (if 0 ≤ i ∧ i < s.length then [char_at s i] else []) = copied)
    (ih : LoopEq s stop step fuel (i + step) (pos + copied.length) room')
    (hturns : turns s.length stop step i room = turns s.length stop step (i + step) room' + 1)
    (hnumbers : (loop_run s.length stop step i room).numbers.map (char_at s)
      = copied ++ (loop_run s.length stop step (i + step) room').numbers.map (char_at s)) :
    LoopEq s stop step (fuel + 1) i pos room := by
  -- the sum of this turn is the first that has to fit
  have hfit : sums_fit s.length stop step i room
      ↔ int64 (i + step) ∧ sums_fit s.length stop step (i + step) room' := by
    unfold sums_fit
    rw [hturns, progression, List.forall_mem_cons]
  unfold LoopEq at ih ⊢
  rw [slice_loop, if_pos hgo, hcopied]
  dsimp only
  rw [ih, hnumbers]
  by_cases hint : int64 (i + step)
  · by_cases hrest : sums_fit s.length stop step (i + step) room'
    · rw [if_pos hint, if_pos hrest, if_pos (hfit.mpr ⟨hint, hrest⟩)]
      rfl
    · rw [if_pos hint, if_neg hrest, if_neg fun h => hrest (hfit.mp h).2]
      rfl
  · rw [if_neg hint, if_neg fun h => hint (hfit.mp h).1]

/-- The loop upwards. -/
theorem loop_up (hstep : 0 < step) (hstop : stop ≤ s.length) (hi : 0 ≤ i)
    (hfuel : (stop - i).toNat ≤ fuel) (hroom : room = 1023 - pos) :
    LoopEq s stop step fuel i pos room := by
  have hturns (j : ℤ) (k : ℕ) : turns s.length stop step j k = min k (steps (stop - j) step) :=
    if_pos hstep
  have hrun (j : ℤ) (k : ℕ) :
      loop_run s.length stop step j k = ⟨j, min k (steps (stop - j) step), step⟩ := if_pos hstep
  induction fuel generalizing i pos room with
  | zero =>
      have hend : steps (stop - i) step = 0 := steps_of_nonpos (by omega)
      refine loop_stops ?_ ?_ ?_
      · rw [if_pos hstep]
        omega
      · rw [hturns, hend, Nat.min_zero]
      · rw [hrun, hend]
        exact Nat.min_zero _
  | succ fuel ih =>
      by_cases hgo : i < stop ∧ pos < 1023
      · have hsteps : steps (stop - i) step = steps (stop - (i + step)) step + 1 := by
          rw [steps_succ hstep (by omega), sub_add_eq_sub_sub]
        have hmin : min room (steps (stop - i) step)
            = min (room - 1) (steps (stop - (i + step)) step) + 1 := by
          omega
        have hrest : LoopEq s stop step fuel (i + step) (pos + [char_at s i].length) (room - 1) :=
          ih (by omega) (by omega) (by rw [List.length_singleton]; omega)
        refine loop_turns (by rwa [if_pos hstep]) (if_pos ⟨hi, by omega⟩) hrest ?_ ?_
        · rw [hturns, hturns, hmin]
        · rw [hrun, hrun, hmin]
          rfl
      · have hnone : min room (steps (stop - i) step) = 0 := by
          rcases not_and_or.mp hgo with h | h
          · rw [steps_of_nonpos (by omega), Nat.min_zero]
          · omega
        refine loop_stops (by rwa [if_pos hstep]) ?_ ?_
        · rw [hturns, hnone]
        · rw [hrun]
          exact hnone

/-- Behind the end of the string nothing is copied. -/
theorem down_behind (stop : ℤ) (hstep : step < 0) (hi : n ≤ i) :
    down n stop step i = down n stop step (i + step)
    ∧ steps (i - (n - 1)) (-step) = steps (i + step - (n - 1)) (-step) + 1 := by
  have hsteps : steps (i - (n - 1)) (-step) = steps (i + step - (n - 1)) (-step) + 1 := by
    rw [steps_succ (by omega) (by omega)]
    congr 2
    ring
  refine ⟨?_, hsteps⟩
  have hfirst : i - steps (i - (n - 1)) (-step) * -step
      = i + step - steps (i + step - (n - 1)) (-step) * -step := by
    rw [hsteps]
    push_cast
    ring
  unfold down
  rw [hfirst]

/-- In the string a character is copied. -/
theorem down_before (stop step : ℤ) (hi : i < n) :
    down n stop step i = ⟨i, steps (i - max stop (-1)) (-step), step⟩
    ∧ steps (i - (n - 1)) (-step) = 0 := by
  have hnone : steps (i - (n - 1)) (-step) = 0 := steps_of_nonpos (by omega)
  refine ⟨?_, hnone⟩
  unfold down
  rw [hnone]
  simp

theorem down_stopped (hstep : step < 0) (hi : i ≤ stop) : (down n stop step i).count = 0 := by
  refine steps_of_nonpos ?_
  have hback : 0 ≤ steps (i - (n - 1)) (-step) * -step :=
    mul_nonneg (Int.natCast_nonneg _) (by omega)
  have := le_max_left stop (-1)
  linarith

theorem loop_down_stops (hstep : step < 0) (hroom : room = 1023 - pos)
    (hend : ¬ (stop < i ∧ pos < 1023)) : LoopEq s stop step fuel i pos room := by
  have hneg : ¬ 0 < step := by omega
  have hnone : room = 0 ∨ (down s.length stop step i).count = 0 ∧ steps (i - stop) (-step) = 0 := by
    rcases not_and_or.mp hend with h | h
    · exact Or.inr ⟨down_stopped hstep (by omega), steps_of_nonpos (by omega)⟩
    · exact Or.inl (by omega)
  refine loop_stops (by rwa [if_neg hneg]) ?_ ?_
  · unfold turns
    rw [if_neg hneg]
    rcases hnone with hnone | ⟨hcount, hsteps⟩
    · exact if_pos hnone
    · rw [hcount, hsteps]
      split_ifs <;> omega
  · unfold loop_run
    rw [if_neg hneg]
    dsimp only
    rcases hnone with hnone | ⟨hcount, -⟩
    · rw [hnone, Nat.zero_min]
    · rw [hcount, Nat.min_zero]

/-- The loop downwards. -/
theorem loop_down (hstep : step < 0) (hfuel : (i - stop).toNat ≤ fuel)
    (hroom : room = 1023 - pos) : LoopEq s stop step fuel i pos room := by
  have hneg : ¬ 0 < step := by omega
  have hd : 0 < -step := by omega
  have hturns (j : ℤ) (k : ℕ) : turns s.length stop step j k
      = if k = 0 then 0
        else if k ≤ (down s.length stop step j).count then steps (j - (s.length - 1)) (-step) + k
        else steps (j - stop) (-step) := if_neg hneg
  have hrun (j : ℤ) (k : ℕ) : loop_run s.length stop step j k
      = ⟨(down s.length stop step j).first, min k (down s.length stop step j).count, step⟩ :=
    if_neg hneg
  induction fuel generalizing i pos room with
  | zero => exact loop_down_stops hstep hroom (by omega)
  | succ fuel ih =>
      by_cases hgo : stop < i ∧ pos < 1023
      case neg => exact loop_down_stops hstep hroom hgo
      case pos =>
          have hgo' : (if 0 < step then i < stop else stop < i) ∧ pos < 1023 := by
            rwa [if_neg hneg]
          have hsteps : steps (i - stop) (-step) = steps (i + step - stop) (-step) + 1 := by
            rw [steps_succ hd (by omega)]
            congr 2
            ring
          have hpos : room ≠ 0 := by omega
          rcases lt_or_ge i 0 with hi | hi
          · -- in front of the string
            have hcount (j : ℤ) (hj : j < 0) : (down s.length stop step j).count = 0 := by
              rw [(down_before stop step (by omega)).1]
              exact steps_of_nonpos (by have := le_max_right stop (-1); omega)
            have hrest : LoopEq s stop step fuel (i + step) pos room := ih (by omega) hroom
            refine loop_turns hgo' (if_neg (by omega)) hrest ?_ ?_
            · rw [hturns, hturns, if_neg hpos, if_neg hpos, hcount i hi, hcount _ (by omega),
                if_neg (by omega), if_neg (by omega), hsteps]
            · rw [hrun, hrun, hcount i hi, hcount _ (by omega), Nat.min_zero]
              rfl
          rcases lt_or_ge i s.length with hlt | hge
          · -- in the string
            have hlow : max stop (-1) < i := by omega
            have hcount : steps (i - max stop (-1)) (-step)
                = steps (i + step - max stop (-1)) (-step) + 1 := by
              rw [steps_succ hd (by omega)]
              congr 2
              ring
            obtain ⟨hdown, hskip⟩ := down_before (n := s.length) stop step hlt
            obtain ⟨hdown', hskip'⟩ :=
              down_before (n := s.length) (i := i + step) stop step (by omega)
            have hrest : LoopEq s stop step fuel (i + step) (pos + [char_at s i].length)
                (room - 1) := ih (by omega) (by rw [List.length_singleton]; omega)
            refine loop_turns hgo' (if_pos ⟨hi, hlt⟩) hrest ?_ ?_
            · rw [hturns, hturns, hdown, hdown', hskip, hskip', hcount, hsteps]
              dsimp only
              split_ifs <;> omega
            · have hmin : min room (steps (i + step - max stop (-1)) (-step) + 1)
                  = min (room - 1) (steps (i + step - max stop (-1)) (-step)) + 1 := by
                omega
              rw [hrun, hrun, hdown, hdown', hcount]
              dsimp only
              rw [hmin]
              rfl
          · -- behind the string
            obtain ⟨hdown, hskip⟩ := down_behind (n := s.length) stop hstep hge
            have hrest : LoopEq s stop step fuel (i + step) pos room := ih (by omega) hroom
            refine loop_turns hgo' (if_neg (by omega)) hrest ?_ ?_
            · rw [hturns, hturns, if_neg hpos, if_neg hpos, hdown, hskip, hsteps]
              split_ifs <;> omega
            · rw [hrun, hrun, hdown]
              rfl

end Loop

/-! ## `py_str_slice` -/

theorem reverse_eq (s : List Char) :
    s.reverse.take 1023
      = (Run.mk (s.length - 1) (min 1023 s.length) (-1)).numbers.map (char_at s) := by
  refine List.ext_getElem (by simp [Run.numbers]) fun j hj hj' => ?_
  have hlt : j < s.length := by
    rw [List.length_take, List.length_reverse] at hj
    omega
  have hpos : ((s.length : ℤ) - 1 + j * -1).toNat = s.length - 1 - j := by omega
  simp only [List.getElem_take, List.getElem_reverse, List.getElem_map, Run.numbers,
    getElem_progression, char_at, hpos]
  rw [List.getD_eq_getElem?_getD, List.getElem?_eq_getElem (by omega), Option.getD_some]

/-- What `py_str_slice` returns for any string and any bounds. -/
theorem py_str_slice_eq (s : List Char) (start stop step : ℤ) :
    py_str_slice s start stop step
      = if c_fits s.length start stop step then
          some ((c_run s.length start stop step).numbers.map (char_at s))
        else none := by
  have hone : (if step = 0 then 1 else step) = -1 ↔ step = -1 := by
    by_cases h : step = 0
    · rw [if_pos h, h]
      decide
    · rw [if_neg h]
  by_cases hrev : reversed start stop step
  · -- this loop ends at 0 and its sums fit
    have hfits : c_fits s.length start stop step := Or.inl hrev
    rw [if_pos hfits, c_run, if_pos hrev, ← reverse_eq]
    exact if_pos (by rwa [hone])
  · have hstart : (if (if start < 0 then start + s.length else start) < 0 then 0
        else if start < 0 then start + s.length else start) = c_start s.length start := by
      unfold c_start
      split_ifs <;> omega
    have hstop : (if (s.length : ℤ) < (if stop < 0 then stop + s.length else stop)
        then (s.length : ℤ) else if stop < 0 then stop + s.length else stop)
        = c_stop s.length stop := by
      unfold c_stop
      split_ifs <;> omega
    have hloop : LoopEq s (c_stop s.length stop) (if step = 0 then 1 else step)
        (c_stop s.length stop - c_start s.length start).natAbs (c_start s.length start) 0 1023 := by
      rcases lt_or_ge 0 (if step = 0 then 1 else step) with hup | hdown
      · exact loop_up hup (min_le_left _ _) (le_max_left _ _) (by omega) rfl
      · refine loop_down (lt_of_le_of_ne hdown ?_) (by omega) rfl
        split_ifs <;> omega
    have hfits : c_fits s.length start stop step ↔ sums_fit s.length (c_stop s.length stop)
        (if step = 0 then 1 else step) (c_start s.length start) 1023 := or_iff_right hrev
    unfold py_str_slice c_run
    dsimp only
    rw [if_neg (by rwa [hone]), if_neg hrev, hstart, hstop, hloop]
    simp only [hfits]

/-! ## Positions in a string -/

/-- Different positions tell strings of two letters apart. -/
theorem positions_eq_iff {n : ℕ} {l l' : List ℤ} (hl : ∀ i ∈ l, 0 ≤ i ∧ i < n)
    (hl' : ∀ i ∈ l', 0 ≤ i ∧ i < n) :
    (∀ s : List Char, '\x00' ∉ s → s.length = n → l.map (char_at s) = l'.map (char_at s))
      ↔ l = l' := by
  refine ⟨fun h => ?_, fun h s _ _ => by rw [h]⟩
  -- the string that has its only `b` at the position `i`
  let letters (i : ℤ) : List Char := (List.replicate n 'a').set i.toNat 'b'
  have hletters (i : ℤ) : '\x00' ∉ letters i ∧ (letters i).length = n := by
    refine ⟨fun hmem => ?_, by simp [letters]⟩
    rcases List.mem_or_eq_of_mem_set hmem with hmem | hmem
    · exact absurd (List.eq_of_mem_replicate hmem) (by decide)
    · exact absurd hmem (by decide)
  have heq (i : ℤ) : l.map (char_at (letters i)) = l'.map (char_at (letters i)) :=
    h _ (hletters i).1 (hletters i).2
  clear h
  -- the heads are told apart by the string with the `b` at one of them, the tails by induction
  induction l generalizing l' with
  | nil => exact (List.map_eq_nil_iff.mp (heq 0).symm).symm
  | cons i l ih =>
      cases l' with
      | nil => cases heq 0
      | cons j l' =>
          have hi := hl i List.mem_cons_self
          have hj := hl' j List.mem_cons_self
          have htails := ih (fun k hk => hl k (List.mem_cons_of_mem i hk))
            (fun k hk => hl' k (List.mem_cons_of_mem j hk)) fun k => (List.cons.inj (heq k)).2
          have hheads : char_at (letters i) i = char_at (letters i) j := (List.cons.inj (heq i)).1
          have hb : char_at (letters i) i = 'b' := by
            simp [char_at, letters, show i.toNat < n by omega]
          rw [htails]
          by_contra hne
          have hij : i ≠ j := fun h => hne (by rw [h])
          have ha : char_at (letters i) j = 'a' := by
            simp [char_at, letters, show i.toNat ≠ j.toNat by omega,
              show j.toNat < n by omega]
          rw [hb, ha] at hheads
          exact absurd hheads (by decide)

theorem adjust_mem {n : ℕ} {lo hi z : ℤ} (h : lo ≤ hi) :
    lo ≤ adjust n lo hi z ∧ adjust n lo hi z ≤ hi :=
  ⟨le_max_left _ _, max_le h (min_le_left _ _)⟩

theorem bound_mem (n : ℕ) (lo hi default : ℤ) (bound : Option ℤ) (h : lo ≤ hi)
    (hdefault : lo ≤ default ∧ default ≤ hi) :
    lo ≤ (bound.map (adjust n lo hi)).getD default
      ∧ (bound.map (adjust n lo hi)).getD default ≤ hi := by
  cases bound with
  | none => exact hdefault
  | some z => exact adjust_mem h

/-- Python takes characters of the string. -/
theorem python_run_mem {n : ℕ} {start stop : Option ℤ} {step i : ℤ} (hstep : step ≠ 0)
    (hi : i ∈ (python_run n start stop step).numbers) : 0 ≤ i ∧ i < n := by
  unfold python_run at hi
  split at hi
  case isTrue hup =>
      have hfirst := bound_mem n 0 n 0 start (by omega)
        (by omega)
      have hlast := bound_mem n 0 n n stop (by omega)
        (by omega)
      have := mem_upwards hup le_rfl hi
      dsimp only at this
      omega
  case isFalse hdown =>
      have hfirst := bound_mem n (-1) (n - 1) (n - 1) start
        (by omega) (by omega)
      have hlast := bound_mem n (-1) (n - 1) (-1) stop (by omega)
        (by omega)
      have := mem_downwards (d := step) (by omega) le_rfl hi
      dsimp only at this
      omega

/-- So does `py_str_slice`. -/
theorem c_run_mem {n : ℕ} {start stop step i : ℤ} (hi : i ∈ (c_run n start stop step).numbers) :
    0 ≤ i ∧ i < n := by
  unfold c_run at hi
  split at hi
  case isTrue =>
      obtain ⟨j, hj, rfl⟩ := mem_progression.mp hi
      dsimp only at hj ⊢
      omega
  case isFalse =>
      have hstart : 0 ≤ c_start n start := le_max_left _ _
      have hstop : c_stop n stop ≤ n := min_le_left _ _
      generalize hd : (if step = 0 then 1 else step) = d at hi
      have hne : d ≠ 0 := by
        rw [← hd]
        split_ifs <;> omega
      unfold loop_run at hi
      split at hi
      case isTrue hup =>
          have := mem_upwards hup (min_le_right _ _) hi
          dsimp only at this
          omega
      case isFalse hdown =>
          have hle := le_steps_mul (d := -d) (by omega) (c_start n start - (n - 1))
          have := mem_downwards (d := d) (by omega) (min_le_right _ _) hi
          unfold down at this
          dsimp only at this
          omega

/-! ## Slices that are cut as in Python -/

/-- The positions that `py_str_slice` copies for the arguments `x`, `y` and `z` are those of the
slice with the bounds `start`, `stop` and `step`: equally many, from the same one on and in the
same steps. -/
structure Agrees (n : ℕ) (x y z : ℤ) (start stop step : Option ℤ) : Prop where
  step_ne : step ≠ some 0
  fits : c_fits n x y z
  same : (c_run n x y z).Same (python_run n start stop (step.getD 1))

/-- `py_str_slice` gives Python's slice of every string of a length. -/
theorem agrees_iff (n : ℕ) (x y z : ℤ) (start stop step : Option ℤ) :
    (∀ s : List Char, '\x00' ∉ s → s.length = n →
      ∃ t, python_slice s start stop step = some t ∧ py_str_slice s x y z = some t)
      ↔ Agrees n x y z start stop step := by
  have hpython (hstep : step ≠ some 0) (i : ℤ)
      (hi : i ∈ (python_run n start stop (step.getD 1)).numbers) : 0 ≤ i ∧ i < n := by
    refine python_run_mem (fun h => hstep ?_) hi
    cases step with
    | none => cases h
    | some d => exact congrArg some h
  have hruns (hstep : step ≠ some 0) :=
    positions_eq_iff (fun i (hi : i ∈ (c_run n x y z).numbers) => c_run_mem hi) (hpython hstep)
  constructor
  · intro h
    -- there is a string of `n` characters, and Python has an error for the step 0
    have hstep : step ≠ some 0 := by
      rintro rfl
      obtain ⟨t, ht, -⟩ := h (List.replicate n 'a') (by simp [List.mem_replicate]) (by simp)
      cases ht
    have hboth (s : List Char) (hs : '\x00' ∉ s) (hn : s.length = n) :
        c_fits n x y z ∧ (c_run n x y z).numbers.map (char_at s)
          = (python_run n start stop (step.getD 1)).numbers.map (char_at s) := by
      obtain ⟨t, ht, hcall⟩ := h s hs hn
      rw [py_str_slice_eq, hn] at hcall
      rw [python_slice, if_neg hstep, hn] at ht
      split at hcall
      case isTrue hfits =>
          exact ⟨hfits, (Option.some.inj hcall).trans (Option.some.inj ht).symm⟩
      case isFalse => cases hcall
    refine ⟨hstep, ?_, ?_⟩
    · exact (hboth (List.replicate n 'a') (by simp [List.mem_replicate]) (by simp)).1
    · exact (Run.numbers_eq_iff _ _).mp ((hruns hstep).mp fun s hs hn => (hboth s hs hn).2)
  · rintro ⟨hstep, hfits, hsame⟩ s - hn
    refine ⟨_, if_neg hstep, ?_⟩
    rw [py_str_slice_eq, hn, if_pos hfits, (Run.numbers_eq_iff _ _).mpr hsame]

/-! ## Kinds of slices -/

section Kinds

variable {n : ℕ} {start stop : Option ℤ} {step x y z : ℤ}

theorem c_run_up (hstep : 0 < step) : c_run n x y step
    = ⟨c_start n x, min 1023 (steps (c_stop n y - c_start n x) step), step⟩ := by
  have hrev : ¬ reversed x y step := fun h => absurd h.1 (by omega)
  unfold c_run
  rw [if_neg hrev, if_neg hstep.ne']
  exact if_pos hstep

/-- Downwards, from a position in the string. -/
theorem c_run_down (hstep : step < 0) (hrev : ¬ reversed x y step) (hx : c_start n x < n) :
    c_run n x y step
      = ⟨c_start n x, min 1023 (steps (c_start n x - max (c_stop n y) (-1)) (-step)), step⟩ := by
  unfold c_run
  rw [if_neg hrev, if_neg hstep.ne, loop_run, if_neg hstep.not_gt, (down_before _ _ hx).1]

theorem python_run_up (hstep : 0 < step) : python_run n start stop step
    = ⟨(start.map (adjust n 0 n)).getD 0, steps ((stop.map (adjust n 0 n)).getD n
        - (start.map (adjust n 0 n)).getD 0) step, step⟩ := if_pos hstep

theorem python_run_down (hstep : step < 0) : python_run n start stop step
    = ⟨(start.map (adjust n (-1) (n - 1))).getD (n - 1),
        steps ((start.map (adjust n (-1) (n - 1))).getD (n - 1)
          - (stop.map (adjust n (-1) (n - 1))).getD (-1)) (-step), step⟩ := if_neg hstep.not_gt

theorem steps_one (gap : ℤ) : steps gap 1 = gap.toNat := by
  unfold steps
  rw [Int.ediv_one]
  split_ifs <;> omega

theorem agrees_some_iff (hstep : step ≠ 0) : Agrees n x y z start stop (some step)
    ↔ c_fits n x y z ∧ (c_run n x y z).Same (python_run n start stop step) :=
  ⟨fun h => ⟨h.fits, h.same⟩, fun h => ⟨fun hs => hstep (Option.some.inj hs), h.1, h.2⟩⟩

/-- In a string without characters nothing is taken. -/
theorem count_of_empty (r : Run) (h : ∀ i ∈ r.numbers, 0 ≤ i ∧ i < ((0 : ℕ) : ℤ)) :
    r.count = 0 := by
  have hnone : r.numbers = [] := List.eq_nil_iff_forall_not_mem.mpr fun i hi => by
    have := h i hi
    omega
  simpa [Run.numbers] using congrArg List.length hnone

theorem same_of_empty (hstep : step ≠ 0) :
    (c_run 0 x y z).Same (python_run 0 start stop step) := by
  have hc := count_of_empty (c_run 0 x y z) fun i hi => c_run_mem hi
  have hpython := count_of_empty (python_run 0 start stop step) fun i hi => python_run_mem hstep hi
  unfold Run.Same
  omega

/-- With one colon the whole string is meant, or what is left of it by the buffer. -/
theorem agrees_one_colon (n : ℕ) (start stop : Option ℤ) : Agrees n 0 999999 1 start stop none
    ↔ n = 0 ∨ (start.map (adjust n 0 n)).getD 0 = 0
        ∧ (stop.map (adjust n 0 n)).getD n = min n 1023 := by
  have hfirst := bound_mem n 0 n 0 start (by omega) (by omega)
  have hlast := bound_mem n 0 n n stop (by omega) (by omega)
  have hstart : c_start n 0 = 0 := rfl
  have hstop : c_stop n 999999 = min (n : ℤ) 999999 := rfl
  have hfits : c_fits n 0 999999 1 := by
    refine Or.inr fun j hj => ?_
    obtain ⟨k, hk, rfl⟩ := mem_progression.mp hj
    have hturns : turns n (c_stop n 999999) 1 (c_start n 0) 1023
        = min 1023 (steps (c_stop n 999999 - c_start n 0) 1) := rfl
    rw [if_neg one_ne_zero] at hk ⊢
    rw [hturns] at hk
    unfold int64
    omega
  have hsame : (c_run n 0 999999 1).Same (python_run n start stop 1)
      ↔ n = 0 ∨ (start.map (adjust n 0 n)).getD 0 = 0
        ∧ (stop.map (adjust n 0 n)).getD n = min n 1023 := by
    rw [c_run_up one_pos, python_run_up one_pos, hstart, hstop, steps_one, steps_one]
    unfold Run.Same
    dsimp only
    omega
  exact ⟨fun h => hsame.mp h.same, fun h => ⟨by decide, hfits, hsame.mpr h⟩⟩

/-- Upwards all slices are cut as in Python for which the buffer suffices. -/
theorem agrees_up (hstep : 0 < step) (hn : n ≤ 999999) :
    Agrees n (start.getD 0) (stop.getD 999999) step start stop (some step)
      ↔ c_fits n (start.getD 0) (stop.getD 999999) step
        ∧ (python_run n start stop step).count ≤ 1023 := by
  have hfirst : (start.map (adjust n 0 n)).getD 0 = min (n : ℤ) (c_start n (start.getD 0)) := by
    cases start with
    | none => exact (min_eq_right (Int.natCast_nonneg n)).symm
    | some z => simp only [Option.map_some, Option.getD_some, adjust, c_start]; omega
  have hlast : (stop.map (adjust n 0 n)).getD n = max 0 (c_stop n (stop.getD 999999)) := by
    cases stop with
    | none => simp only [Option.map_none, Option.getD_none, c_stop]; omega
    | some z => rfl
  have hle : c_stop n (stop.getD 999999) ≤ n := min_le_left _ _
  have hpos : 0 ≤ c_start n (start.getD 0) := le_max_left _ _
  have hsame : (c_run n (start.getD 0) (stop.getD 999999) step).Same (python_run n start stop step)
      ↔ (python_run n start stop step).count ≤ 1023 := by
    rw [c_run_up hstep, python_run_up hstep, hfirst, hlast]
    generalize c_start n (start.getD 0) = first at *
    generalize c_stop n (stop.getD 999999) = last at *
    unfold Run.Same
    dsimp only
    -- the runtime clamps less, but where that makes a difference nothing is taken
    by_cases hgap : first < last
    · rw [show min (n : ℤ) first = first by omega, show max 0 last = last by omega]
      omega
    · have hnone : steps (last - first) step = 0 := steps_of_nonpos (by omega)
      have hnone' : steps (max 0 last - min (n : ℤ) first) step = 0 := steps_of_nonpos (by omega)
      omega
  rw [agrees_some_iff hstep.ne']
  exact and_congr_right fun _ => hsame

/-- So are the slices downwards from a position in the string, if both bounds are given. -/
theorem agrees_down (hstep : step < 0) (hrev : ¬ reversed x y step) (hx : c_start n x < n)
    (hx' : -n ≤ x) :
    Agrees n x y step (some x) (some y) (some step)
      ↔ c_fits n x y step ∧ (python_run n (some x) (some y) step).count ≤ 1023 := by
  have hfirst : adjust n (-1) (n - 1) x = c_start n x := by
    unfold adjust
    unfold c_start at hx ⊢
    omega
  have hlast : adjust n (-1) (n - 1) y = min ((n : ℤ) - 1) (max (c_stop n y) (-1)) := by
    unfold adjust c_stop
    omega
  have hsame : (c_run n x y step).Same (python_run n (some x) (some y) step)
      ↔ (python_run n (some x) (some y) step).count ≤ 1023 := by
    rw [c_run_down hstep hrev hx, python_run_down hstep]
    unfold Run.Same
    dsimp only [Option.map_some, Option.getD_some]
    rw [hfirst, hlast]
    generalize c_start n x = first at *
    generalize max (c_stop n y) (-1) = last at *
    by_cases hgap : last < first
    · rw [show min ((n : ℤ) - 1) last = last by omega]
      omega
    · have hnone : steps (first - last) (-step) = 0 := steps_of_nonpos (by omega)
      have hnone' : steps (first - min ((n : ℤ) - 1) last) (-step) = 0 := steps_of_nonpos (by omega)
      omega
  rw [agrees_some_iff hstep.ne]
  exact and_congr_right fun _ => hsame

/-- From behind the string the runtime goes on in its steps, and Python begins with the last
character. -/
theorem agrees_down_behind (hstep : step < 0) (hx : n ≤ x) :
    Agrees n x y step (some x) (some y) (some step)
      ↔ c_fits n x y step ∧ (python_run n (some x) (some y) step).count ≤ 1023
        ∧ (-step ∣ x - (n - 1) ∨ (python_run n (some x) (some y) step).count = 0) := by
  rw [agrees_some_iff hstep.ne]
  refine and_congr_right fun _ => ?_
  rcases eq_or_ne n 0 with rfl | hn
  · have hnone : (python_run 0 (some x) (some y) step).count = 0 :=
      count_of_empty _ fun i hi => python_run_mem hstep.ne hi
    exact iff_of_true (same_of_empty hstep.ne) ⟨by omega, Or.inr hnone⟩
  · have hrev : ¬ reversed x y step := fun h => absurd h.2.1 (by omega)
    have hstart : c_start n x = x := by
      unfold c_start
      omega
    have hfirst : adjust n (-1) (n - 1) x = n - 1 := by
      unfold adjust
      omega
    have hlast : adjust n (-1) (n - 1) y = min ((n : ℤ) - 1) (max (c_stop n y) (-1)) := by
      unfold adjust c_stop
      omega
    have hc : c_run n x y step = { down n (c_stop n y) step x with
        count := min 1023 (down n (c_stop n y) step x).count } := by
      unfold c_run
      rw [if_neg hrev, if_neg hstep.ne, loop_run, if_neg hstep.not_gt, hstart]
    have hd : 0 < -step := by omega
    have hreach := le_steps_mul hd (x - (n - 1))
    have hexact := steps_mul_eq_iff hd (show 0 ≤ x - (n - 1) by omega)
    rw [hc, python_run_down hstep]
    unfold Run.Same down
    dsimp only [Option.map_some, Option.getD_some]
    rw [hfirst, hlast, ← hexact, steps_eq_zero_iff _ hd]
    generalize (steps (x - (n - 1)) (-step) : ℤ) * -step = back at *
    generalize max (c_stop n y) (-1) = last at *
    have hnone := steps_eq_zero_iff (x - back - last) hd
    have hnone' := steps_eq_zero_iff ((n : ℤ) - 1 - min ((n : ℤ) - 1) last) hd
    have hsame : back = x - (n - 1) → steps (x - back - last) (-step)
        = steps ((n : ℤ) - 1 - min ((n : ℤ) - 1) last) (-step) := by
      intro heq
      rcases le_total last (n - 1) with h | h
      · rw [min_eq_right h, heq]
        congr 1
        omega
      · rw [hnone.mpr (by omega), hnone'.mpr (by omega)]
    omega

/-- Downwards from 0, one character is taken or none. -/
theorem c_run_down_zero (hstep : step < 0) (hrev : ¬ reversed x y step) (hn : n ≠ 0)
    (hx : c_start n x = 0) : c_run n x y step = ⟨0, if 0 ≤ c_stop n y then 0 else 1, step⟩ := by
  rw [c_run_down hstep hrev (by omega), hx]
  by_cases hstop : 0 ≤ c_stop n y
  · rw [steps_of_nonpos (by omega), Nat.min_zero, if_pos hstop]
  · have hone : steps (0 - max (c_stop n y) (-1)) (-step) = 1 := by
      rw [steps_succ (by omega) (by omega), steps_of_nonpos (by omega)]
    rw [hone, if_neg hstop]
    rfl

/-- From in front of the string Python takes nothing; the runtime begins with the first
character. -/
theorem agrees_down_front (hstep : step < 0) (hx : x < -n) :
    Agrees n x y step (some x) (some y) (some step)
      ↔ c_fits n x y step ∧ (n = 0 ∨ 0 ≤ c_stop n y) := by
  have hrev : ¬ reversed x y step := fun h => absurd h.2.1 (by omega)
  rw [agrees_some_iff hstep.ne]
  refine and_congr_right fun _ => ?_
  rcases eq_or_ne n 0 with rfl | hn
  · exact iff_of_true (same_of_empty hstep.ne) (Or.inl rfl)
  · have hstart : c_start n x = 0 := by
      unfold c_start
      omega
    have hfirst : adjust n (-1) (n - 1) x = -1 := by
      unfold adjust
      omega
    have hlast : -1 ≤ adjust n (-1) (n - 1) y := le_max_left _ _
    have hpython : (python_run n (some x) (some y) step).count = 0 := by
      rw [python_run_down hstep]
      refine steps_of_nonpos ?_
      rw [Option.map_some, Option.getD_some, Option.map_some, Option.getD_some, hfirst]
      omega
    rw [c_run_down_zero hstep hrev hn hstart]
    unfold Run.Same
    rw [hpython]
    dsimp only
    by_cases hstop : 0 ≤ c_stop n y
    · rw [if_pos hstop]
      omega
    · rw [if_neg hstop]
      exact iff_of_false (fun h => absurd h.1 (by decide)) (by omega)

/-- Without a start the runtime begins with the first character, Python with the last one. -/
theorem agrees_down_default (hstep : step < 0) (hrev : ¬ reversed 0 y step) :
    Agrees n 0 y step none (some y) (some step)
      ↔ c_fits n 0 y step ∧ (n = 1 ∨ (python_run n none (some y) step).count = 0) := by
  rw [agrees_some_iff hstep.ne]
  refine and_congr_right fun _ => ?_
  rcases eq_or_ne n 0 with rfl | hn
  · exact iff_of_true (same_of_empty hstep.ne)
      (Or.inr (count_of_empty _ fun i hi => python_run_mem hstep.ne hi))
  · have hlast : adjust n (-1) (n - 1) y = min ((n : ℤ) - 1) (max (c_stop n y) (-1)) := by
      unfold adjust c_stop
      omega
    rw [c_run_down_zero hstep hrev hn rfl, python_run_down hstep]
    unfold Run.Same
    dsimp only [Option.map_none, Option.map_some, Option.getD_none, Option.getD_some]
    rw [hlast]
    by_cases hstop : 0 ≤ c_stop n y
    · rw [if_pos hstop]
      have hone : n = 1
          → steps ((n : ℤ) - 1 - min ((n : ℤ) - 1) (max (c_stop n y) (-1))) (-step) = 0 :=
        fun _ => steps_of_nonpos (by omega)
      omega
    · rw [if_neg hstop]
      have hwhole : min ((n : ℤ) - 1) (max (c_stop n y) (-1)) = -1 := by omega
      have hmore : steps ((n : ℤ) - 1 - -1) (-step)
          = steps ((n : ℤ) - 1 - -1 - -step) (-step) + 1 := steps_succ (by omega) (by omega)
      have hone : n = 1 → steps ((n : ℤ) - 1 - -1 - -step) (-step) = 0 :=
        fun _ => steps_of_nonpos (by omega)
      rw [hwhole, hmore]
      omega

/-- Downwards without an end nothing is copied, but for the reversed string. -/
theorem agrees_down_open (hstep : step < 0) (hn : n ≤ 999999) (hrev : ¬ reversed x 999999 step) :
    Agrees n x 999999 step start none (some step)
      ↔ c_fits n x 999999 step ∧ (python_run n start none step).count = 0 := by
  have hcount : (c_run n x 999999 step).count = 0 := by
    have hstop : c_stop n 999999 = n := min_eq_left (by simpa using hn)
    unfold c_run
    rw [if_neg hrev, if_neg hstep.ne, loop_run, if_neg hstep.not_gt, hstop]
    have hle := le_steps_mul (d := -step) (by omega) (c_start n x - (n - 1))
    have hnone : (down n n step (c_start n x)).count = 0 :=
      steps_of_nonpos (by rw [max_eq_left (by omega)]; linarith)
    exact (congrArg (min 1023) hnone).trans (Nat.min_zero _)
  have hsame : (c_run n x 999999 step).Same (python_run n start none step)
      ↔ (python_run n start none step).count = 0 := by
    unfold Run.Same
    rw [hcount]
    omega
  rw [agrees_some_iff hstep.ne]
  exact and_congr_right fun _ => hsame

end Kinds
/-! ## The slices of the translator -/

def decimal (digits : List Char) : ℤ := digits.foldl (fun z c => 10 * z + (c.toNat - 48)) 0

end SysInC.PythontSlice
