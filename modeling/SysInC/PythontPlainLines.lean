/-
Plain source files: those of which the reader of `src/pythont/pythont.c` takes the lines as they
are.

A line has at most 1023 characters and no tab in its indentation, no literal goes on behind it or
has three quotes, and comments hold neither quotes nor brackets. For files of such lines the calls
of `transpile_line` are those for the logical lines (`transpile_plain_file`).
-/
import SysInC.Delimited
import SysInC.PythontLines

set_option autoImplicit false

namespace SysInC.PythontLines

open PythonPlaces

/-! ## Brackets -/

/-- A character that the reader of brackets does not pass over. -/
def special (c : Char) : Bool := c = '"' ∨ c = '\'' ∨ opens c ∨ closes c

/-- Neither a literal of three quotes nor quotes or brackets in a comment. -/
def plain_from : mode → List Char → Prop
  | _, [] => True
  | m, c :: s =>
    (match m with
      | .long _ _ => False
      | .long_escape _ => False
      | .comment => ¬ special c
      | _ => True) ∧ plain_from (read m c).1 s

/-- The quotes that the reader of brackets sees open. -/
inductive Sees : mode → Option Char → Prop where
  | code : Sees .code none
  | comment : Sees .comment none
  | two (q : Char) (hq : q = '"' ∨ q = '\'') : Sees (.two q) none
  | one (q : Char) (hq : q = '"' ∨ q = '\'') : Sees (.one q) (some q)
  | short (q : Char) (hq : q = '"' ∨ q = '\'') : Sees (.short q) (some q)

theorem count_of_not_special {c : Char} (h : ¬ special c) (b : brackets_t) : b.count c = b := by
  unfold special opens closes at h
  unfold brackets_t.count
  simp only [decide_eq_true_eq, not_or] at h
  simp [h]

theorem count_code_cons (m : mode) (b : brackets_t) (c : Char) (s : List Char) :
    count_code m b (c :: s)
      = count_code (read m c).1 (if (read m c).2 = .code then b.count c else b) s := rfl

theorem scan_brackets_some {q c : Char} (hc : c ≠ '\\') (b : brackets_t) (s : List Char) :
    scan_brackets (some q) b (c :: s)
      = if c = q then scan_brackets none b s else scan_brackets (some q) b s := by
  cases s <;> simp [scan_brackets, hc]

theorem scan_brackets_none (b : brackets_t) (c : Char) (s : List Char) :
    scan_brackets none b (c :: s)
      = if c = '"' ∨ c = '\'' then scan_brackets (some c) b s
        else scan_brackets none (b.count c) s := by
  rw [scan_brackets]

/-- One character outside literals; `t` is what the reader goes on with. -/
theorem scan_from_code {c : Char} {s t : List Char} {b : brackets_t}
    (hnext : ∀ m in_s b, Sees m in_s → plain_from m s →
      scan_brackets in_s b t = count_code m b s)
    (hplain : plain_from (from_code c).1 s) :
    scan_brackets none b (c :: t)
      = count_code (from_code c).1 (if (from_code c).2 = .code then b.count c else b) s := by
  rw [scan_brackets_none]
  unfold from_code at hplain ⊢
  by_cases hquote : c = '"' ∨ c = '\''
  · rw [if_pos hquote] at hplain ⊢
    rw [if_pos hquote]
    exact hnext _ _ b (.one c hquote) hplain
  rw [if_neg hquote] at hplain ⊢
  rw [if_neg hquote]
  by_cases hhash : c = '#'
  · subst hhash
    exact hnext _ _ b .comment hplain
  · rw [if_neg hhash] at hplain ⊢
    exact hnext _ _ _ .code hplain

/-- One character in a literal. -/
theorem scan_in_short {q c : Char} {s t : List Char} {b : brackets_t} (hq : q = '"' ∨ q = '\'')
    (hc : c ≠ '\n')
    (hnext : ∀ m in_s b, Sees m in_s → plain_from m s →
      scan_brackets in_s b t = count_code m b s)
    (hescape : plain_from (.short_escape q) s →
      scan_brackets (some q) b ('\\' :: t) = count_code (.short_escape q) b s)
    (hplain : plain_from (in_short q c).1 s) :
    scan_brackets (some q) b (c :: t)
      = count_code (in_short q c).1 (if (in_short q c).2 = .code then b.count c else b) s := by
  unfold in_short at hplain ⊢
  by_cases hback : c = '\\'
  · subst hback
    exact hescape hplain
  rw [if_neg hback] at hplain ⊢
  rw [scan_brackets_some hback]
  by_cases hclose : c = q
  · rw [if_pos hclose] at hplain ⊢
    rw [if_pos hclose]
    exact hnext _ _ b .code hplain
  · rw [if_neg hclose, if_neg hc] at hplain ⊢
    rw [if_neg hclose]
    exact hnext _ _ b (.short q hq) hplain

/-- Within a line, its end included or not, the reader counts the brackets of the code. -/
theorem scan_brackets_eq {s e : List Char} (hline : '\n' ∉ s) (he : e = [] ∨ e = ['\n']) :
    (∀ m in_s b, Sees m in_s → plain_from m s → scan_brackets in_s b (s ++ e) = count_code m b s)
    ∧ ∀ q b, q = '"' ∨ q = '\'' → plain_from (.short_escape q) s →
      scan_brackets (some q) b ('\\' :: (s ++ e)) = count_code (.short_escape q) b s := by
  induction s with
  | nil =>
      refine ⟨fun m in_s b hsees _ => ?_, fun q b hq _ => ?_⟩
      · rcases he with rfl | rfl
        · cases in_s <;> rfl
        · cases hsees with
          | one q hq => rcases hq with rfl | rfl <;> rfl
          | short q hq => rcases hq with rfl | rfl <;> rfl
          | _ => rfl
      · rcases he with rfl | rfl <;> rcases hq with rfl | rfl <;> rfl
  | cons c s ih =>
      obtain ⟨hc, hs⟩ := not_or.mp (mt List.mem_cons.mpr hline)
      obtain ⟨hnext, hescape⟩ := ih hs
      rw [List.cons_append]
      refine ⟨fun m in_s b hsees hplain => ?_, fun q b hq hplain => ?_⟩
      · rw [count_code_cons]
        obtain ⟨hok, hplain⟩ := hplain
        cases hsees with
        | code => exact scan_from_code hnext hplain
        | comment =>
            have hquote : ¬ (c = '"' ∨ c = '\'') := fun h => hok (by
              rcases h with rfl | rfl <;> rfl)
            have hread : read .comment c = (.comment, .comment) := if_neg (Ne.symm hc)
            rw [hread] at hplain ⊢
            rw [scan_brackets_none, if_neg hquote, count_of_not_special hok]
            exact hnext _ _ b .comment hplain
        | two q hq =>
            by_cases hthird : c = q
            · -- three quotes are not followed by anything
              have hread : read (.two q) c = (.long q 0, .literal) := if_pos hthird
              rw [hread] at hplain ⊢
              cases s with
              | nil =>
                  rw [scan_brackets_none, if_pos (hthird ▸ hq)]
                  rcases he with rfl | rfl
                  · rfl
                  · rw [hthird]
                    rcases hq with rfl | rfl <;> rfl
              | cons d s => exact absurd hplain.1 id
            · have hread : read (.two q) c = from_code c := if_neg hthird
              rw [hread] at hplain ⊢
              exact scan_from_code hnext hplain
        | one q hq =>
            by_cases hclose : c = q
            · have hread : read (.one q) c = (.two q, .literal) := if_pos hclose
              have hback : c ≠ '\\' := by rcases hq with rfl | rfl <;> rw [hclose] <;> decide
              rw [hread] at hplain ⊢
              rw [scan_brackets_some hback, if_pos hclose]
              exact hnext _ _ b (.two q hq) hplain
            · have hread : read (.one q) c = in_short q c := if_neg hclose
              rw [hread] at hplain ⊢
              exact scan_in_short hq (Ne.symm hc) hnext (hescape q b hq) hplain
        | short q hq => exact scan_in_short hq (Ne.symm hc) hnext (hescape q b hq) hplain
      · rw [scan_brackets, count_code_cons]
        exact hnext _ _ b (.short q hq) hplain.2

/-! ## A line -/

def is_blank (c : Char) : Bool := c = ' ' ∨ c = '\t'

/-- What the reader takes as it is. -/
structure Plain (line : List Char) : Prop where
  short : line.length ≤ 1023
  no_nul : '\x00' ∉ line
  no_tab : '\t' ∉ line.takeWhile is_blank
  /-- A carriage return belongs to the end of the line. -/
  no_return : ∀ p ∈ own_line .code line, '\r' ∉ p.2
  plain : plain_from .code line
  ends : mode_behind .code (line ++ ['\n']) = .code

section Line

variable {k : ℕ} {line body e : List Char} {b : brackets_t}

/-- The blanks in front of a plain line are spaces. -/
theorem Plain.spaces (h : Plain line) : ∃ k body, line = List.replicate k ' ' ++ body
    ∧ ∀ c ∈ body.head?, ¬ is_blank c := by
  refine ⟨(line.takeWhile is_blank).length, line.dropWhile is_blank, ?_, fun c hc => ?_⟩
  · have hall : line.takeWhile is_blank
        = List.replicate (line.takeWhile is_blank).length ' ' :=
      List.eq_replicate_of_mem fun c hc => by
        have hblank := List.mem_takeWhile_imp hc
        have hne : c ≠ '\t' := fun h' => h.no_tab (h' ▸ hc)
        simpa [is_blank, hne] using hblank
    rw [← hall, List.takeWhile_append_dropWhile]
  · have hhead := List.head?_dropWhile_not is_blank line
    rw [Option.mem_def.mp hc] at hhead
    simpa using hhead

theorem count_code_append (m : mode) (b : brackets_t) (s t : List Char) :
    count_code m b (s ++ t) = count_code (mode_behind m s) (count_code m b s) t := by
  induction s generalizing m b with
  | nil => rfl
  | cons c s ih => exact ih _ _

theorem mode_behind_spaces (k : ℕ) : mode_behind .code (List.replicate k ' ') = .code := by
  induction k with
  | zero => rfl
  | succ k ih => exact ih

theorem count_code_spaces (k : ℕ) (b : brackets_t) :
    count_code .code b (List.replicate k ' ') = b := by
  induction k with
  | zero => rfl
  | succ k ih => exact ih

theorem plain_from_spaces (h : plain_from .code (List.replicate k ' ' ++ body)) :
    plain_from .code body := by
  induction k with
  | zero => exact h
  | succ k ih => exact ih h.2

theorem count_code_break (m : mode) (b : brackets_t) (s : List Char) :
    count_code m b (s ++ ['\n']) = count_code m b s := by
  rw [count_code_append, count_code_cons]
  split <;> rfl

theorem count_code_comment (b : brackets_t) {s : List Char} (hs : '\n' ∉ s) :
    count_code .comment b s = b := by
  induction s with
  | nil => rfl
  | cons c s ih =>
      obtain ⟨hc, hs⟩ := not_or.mp (mt List.mem_cons.mpr hs)
      have hread : read .comment c = (.comment, .comment) := if_neg (Ne.symm hc)
      rw [count_code_cons, hread]
      exact ih hs

theorem count_code_returns (b : brackets_t) {s : List Char} (hs : ∀ c ∈ s, c = '\r') :
    count_code .code b s = b := by
  induction s with
  | nil => rfl
  | cons c s ih =>
      obtain ⟨rfl, hrest⟩ := List.forall_mem_cons.mp hs
      exact ih hrest

/-- The end of a line is taken away. -/
theorem trim_end_append (s : List Char) (he : e = [] ∨ e = ['\n']) :
    trim_end (s ++ e) = trim_end s := by
  rcases he with rfl | rfl
  · rw [List.append_nil]
  · exact List.rdropWhile_concat_pos _ _ _ rfl

theorem head?_trim_end {s : List Char} (h : trim_end s ≠ []) : (trim_end s).head? = s.head? := by
  have hprefix : trim_end s <+: s := List.rdropWhile_prefix _ s
  obtain ⟨t, ht⟩ := hprefix
  conv_rhs => rw [← ht]
  rw [List.head?_append_of_ne_nil _ h]

/-- A line without blanks in front, behind `k` spaces. -/
theorem own_line_spaces (hbody : ∀ c ∈ body.head?, ¬ is_blank c) :
    own_line .code (List.replicate k ' ' ++ body)
      = if trim_end body = [] ∨ body.head? = some '#' then none else some (k, trim_end body) := by
  have hblanks : (List.replicate k ' ' ++ body).takeWhile (fun c => c = ' ' ∨ c = '\t')
      = List.replicate k ' ' := by
    rw [List.takeWhile_append_of_pos fun c hc => by rw [(List.mem_replicate.mp hc).2]; rfl]
    cases body with
    | nil => simp
    | cons c body =>
        rw [List.takeWhile_cons_of_neg (p := fun c => c = ' ' ∨ c = '\t') (hbody c rfl),
          List.append_nil]
  have hsum : ((List.replicate k ' ').map fun c => if c = '\t' then 4 else 1).sum = k := by
    simp [List.map_replicate]
  unfold own_line
  dsimp only
  rw [hblanks, hsum, List.length_replicate, mode_behind_spaces]
  have hdrop : (List.replicate k ' ' ++ body).drop k = body := by
    nth_rewrite 1 [← List.length_replicate (n := k) (a := ' ')]
    exact List.drop_left
  rw [hdrop]
  by_cases hnil : trim_end body = []
  · rw [if_pos (Or.inl hnil), if_pos (Or.inl hnil)]
  · rw [head?_trim_end hnil]
    refine if_congr (or_congr_right ?_) rfl rfl
    exact and_iff_left rfl

/-- What the reader takes behind spaces, of a text without blanks in front. -/
theorem take_line_spaces {s : List Char} (hs : ∀ c ∈ s.head?, ¬ is_blank c) (hnul : '\x00' ∉ s)
    (line_raw : List Char) (b : brackets_t) (left : ℕ) :
    ∃ raw, take_line line_raw b left (List.replicate k ' ' ++ s)
      = if s = [] ∨ s.head? ∈ [some '\n', some '\r', some '#'] then (raw, b, none)
        else (raw, scan_brackets none b s,
          some ⟨left, k, trim_end s, scan_brackets none b s = no_brackets⟩) := by
  obtain ⟨rest, hraw⟩ : ∃ rest, List.replicate k ' ' ++ s
      ++ '\x00' :: line_raw.drop ((List.replicate k ' ' ++ s).length + 1)
      = List.replicate k ' ' ++ (s ++ '\x00' :: rest) :=
    ⟨_, List.append_assoc _ _ _⟩
  have hdrop : (List.replicate k ' ' ++ (s ++ '\x00' :: rest)).drop k = s ++ '\x00' :: rest := by
    nth_rewrite 1 [← List.length_replicate (n := k) (a := ' ')]
    exact List.drop_left
  -- behind the spaces stands neither a space nor a tab
  obtain ⟨c, t, hct, hc⟩ : ∃ c t, s ++ '\x00' :: rest = c :: t ∧ ¬ is_blank c := by
    cases s with
    | nil => exact ⟨'\x00', rest, rfl, by decide⟩
    | cons d s => exact ⟨d, _, rfl, hs d rfl⟩
  have hspaces : ((List.replicate k ' ' ++ (s ++ '\x00' :: rest)).takeWhile (· = ' ')).length
      = k := by
    have hspace : ¬ decide (c = ' ') = true := fun h => hc (by simp [is_blank, of_decide_eq_true h])
    rw [List.takeWhile_append_of_pos fun c hc => by rw [(List.mem_replicate.mp hc).2]; rfl, hct,
      List.takeWhile_cons_of_neg (p := fun c => decide (c = ' ')) hspace, List.append_nil,
      List.length_replicate]
  have htab : (List.replicate k ' ' ++ (s ++ '\x00' :: rest))[k]? ≠ some '\t' := by
    rw [← List.head?_drop, hdrop, hct]
    rintro ⟨⟩
    exact hc rfl
  have htrimmed : ((List.replicate k ' ' ++ (s ++ '\x00' :: rest)).drop k).takeWhile (· ≠ '\x00')
      = s := by
    rw [hdrop, Delimited.takeWhile_append_cons hnul]
  unfold take_line
  simp only [hraw, hspaces, if_neg htab, htrimmed]
  split
  · exact ⟨_, rfl⟩
  · exact ⟨_, rfl⟩

theorem all_returns (hbreak : '\n' ∉ body) (h : trim_end body = []) : ∀ c ∈ body, c = '\r' := by
  intro c hc
  have hend := List.rdropWhile_eq_nil_iff.mp h c hc
  exact (of_decide_eq_true hend).resolve_right fun h' => hbreak (h' ▸ hc)

/-- The reader passes over blank lines and comments. -/
theorem skip_iff (hbreak : '\n' ∉ body) (he : e = [] ∨ e = ['\n'])
    (hreturn : trim_end body ≠ [] → body.head? ≠ some '\r') :
    (body ++ e = [] ∨ (body ++ e).head? ∈ [some '\n', some '\r', some '#'])
    ↔ trim_end body = [] ∨ body.head? = some '#' := by
  cases body with
  | nil =>
      refine iff_of_true ?_ (Or.inl rfl)
      rcases he with rfl | rfl
      · exact Or.inl rfl
      · exact Or.inr List.mem_cons_self
  | cons c body =>
      have hc : c ≠ '\n' := fun h => hbreak (h ▸ List.mem_cons_self)
      have hnil : trim_end (c :: body) = [] → c = '\r' :=
        fun h => all_returns hbreak h c List.mem_cons_self
      have hcons : trim_end (c :: body) ≠ [] → c ≠ '\r' :=
        fun h hr => hreturn h (congrArg some hr)
      simp only [List.cons_append, List.head?_cons, List.mem_cons, Option.some.injEq,
        List.not_mem_nil, or_false, reduceCtorEq, false_or, hc]
      refine or_congr_left ⟨fun hr => ?_, hnil⟩
      by_contra h
      exact hcons h hr

theorem count_of_skip (hbreak : '\n' ∉ body) (b : brackets_t)
    (h : trim_end body = [] ∨ body.head? = some '#') : count_code .code b body = b := by
  rcases h with h | h
  · exact count_code_returns b (all_returns hbreak h)
  · obtain ⟨t, rfl⟩ := List.head?_eq_some_iff.mp h
    exact count_code_comment b fun ht => hbreak (List.mem_cons_of_mem _ ht)

/-- A plain line is taken as it is, and behind it the counters are those of the code. -/
theorem take_line_plain (h : Plain line) (hline : '\n' ∉ line) (he : e = [] ∨ e = ['\n'])
    (line_raw : List Char) (b : brackets_t) (left : ℕ) :
    ∃ raw, take_line line_raw b left (line ++ e)
      = (raw, count_code .code b line, (own_line .code line).map fun p =>
        ⟨left, p.1, p.2, count_code .code b line = no_brackets⟩) := by
  obtain ⟨k, body, rfl, hbody⟩ := h.spaces
  have hbreak : '\n' ∉ body := fun hmem => hline (List.mem_append_right _ hmem)
  have hnul : '\x00' ∉ body ++ e := by
    rcases he with rfl | rfl <;> have := h.no_nul <;> simp_all
  have hhead : ∀ c ∈ (body ++ e).head?, ¬ is_blank c := by
    cases body with
    | nil => rcases he with rfl | rfl <;> simp [is_blank]
    | cons c body => exact hbody
  have hcount : count_code .code b (List.replicate k ' ' ++ body) = count_code .code b body := by
    rw [count_code_append, mode_behind_spaces, count_code_spaces]
  have hreturn : trim_end body ≠ [] → body.head? ≠ some '\r' := by
    intro hne hr
    have hown := h.no_return (k, trim_end body) (by
      rw [own_line_spaces hbody, if_neg (by simp [hne, hr])]
      rfl)
    rw [← head?_trim_end hne] at hr
    exact hown (List.mem_of_head? hr)
  obtain ⟨raw, htake⟩ := take_line_spaces (k := k) hhead hnul line_raw b left
  refine ⟨raw, ?_⟩
  rw [List.append_assoc, htake, hcount, own_line_spaces hbody,
    (scan_brackets_eq hbreak he).1 .code none b .code (plain_from_spaces h.plain),
    trim_end_append body he]
  by_cases hskip : trim_end body = [] ∨ body.head? = some '#'
  · rw [if_pos ((skip_iff hbreak he hreturn).mpr hskip), if_pos hskip,
      count_of_skip hbreak b hskip]
    rfl
  · rw [if_neg (mt (skip_iff hbreak he hreturn).mp hskip), if_neg hskip]
    rfl

end Line

/-! ## A file -/

section File

open Delimited

variable {line file : List Char} {n n' : ℕ}

/-- A line is read with the line break behind it, -/
theorem fgets_line (hline : '\n' ∉ line) (hshort : line.length < 1023) (rest : List Char) :
    fgets 1024 (line ++ '\n' :: rest) = (line ++ ['\n'], rest) := by
  have hsplit : line ++ '\n' :: rest = (line ++ ['\n']) ++ rest := by simp
  have hmin : min (1024 - 1) (line.length + 1) = (line ++ ['\n']).length := by
    rw [List.length_append, List.length_singleton]
    omega
  unfold fgets
  dsimp only
  rw [takeWhile_append_cons hline, hmin, hsplit, List.take_left, List.drop_left]

/-- or alone, where the buffer is full, -/
theorem fgets_full (hline : '\n' ∉ line) (hfull : line.length = 1023) (rest : List Char) :
    fgets 1024 (line ++ '\n' :: rest) = (line, '\n' :: rest) := by
  have hmin : min (1024 - 1) (line.length + 1) = line.length := by omega
  unfold fgets
  dsimp only
  rw [takeWhile_append_cons hline, hmin, List.take_left, List.drop_left]

/-- or up to the end of the file. -/
theorem fgets_last (hline : '\n' ∉ line) (hshort : line.length ≤ 1023) :
    fgets 1024 line = (line, []) := by
  have hmin : line.length ≤ min (1024 - 1) (line.length + 1) := by omega
  unfold fgets
  dsimp only
  rw [takeWhile_self hline, List.take_of_length_le hmin, List.drop_eq_nil_of_le hmin]

theorem taken_step {line_raw raw chunk rest : List Char} {b b' : brackets_t} {o : Option line_t}
    (hfile : file ≠ []) (hget : fgets 1024 file = (chunk, rest))
    (htake : take_line line_raw b file.length chunk = (raw, b', o)) :
    taken (n + 1) line_raw b file = o.toList ++ taken n raw b' rest := by
  cases file with
  | nil => exact absurd rfl hfile
  | cons c file =>
      rw [taken, hget]
      dsimp only
      rw [htake]
      cases o <;> rfl

theorem python_lines_step {m : mode} {b : brackets_t} (hfile : file ≠ [])
    (hline : file.takeWhile (· ≠ '\n') = line) :
    python_lines (n + 1) m b file
      = ((own_line m line).map fun p => (⟨file.length, p.1, p.2,
          count_code m b (file.take (line.length + 1)) = no_brackets⟩ : line_t)).toList
        ++ python_lines n (mode_behind m (file.take (line.length + 1)))
          (count_code m b (file.take (line.length + 1))) (file.drop (line.length + 1)) := by
  cases file with
  | nil => exact absurd rfl hfile
  | cons c file =>
      rw [python_lines, hline]
      cases own_line m line <;> rfl

theorem plain_nil : Plain [] where
  short := Nat.zero_le _
  no_nul := List.not_mem_nil
  no_tab := List.not_mem_nil
  no_return := fun p hp => by cases hp
  plain := trivial
  ends := rfl

/-- Of a file of plain lines the lines are taken as they are. -/
theorem taken_eq (hplain : ∀ line ∈ file.splitOn '\n', Plain line) (hn : file.length ≤ n)
    (hn' : file.length ≤ n') (line_raw : List Char) (b : brackets_t) :
    taken n line_raw b file = python_lines n' .code b file := by
  induction hlen : file.length using Nat.strong_induction_on
    generalizing file n n' line_raw b with
  | _ len ih =>
      by_cases hfile : file = []
      · subst hfile
        cases n <;> cases n' <;> rfl
      have hpos := List.length_pos_iff.mpr hfile
      obtain ⟨n, rfl⟩ : ∃ k, n = k + 1 := ⟨n - 1, by omega⟩
      obtain ⟨n', rfl⟩ : ∃ k, n' = k + 1 := ⟨n' - 1, by omega⟩
      rw [splitOn_eq] at hplain
      obtain ⟨hfirst, hothers⟩ := List.forall_mem_cons.mp hplain
      have hbreak := not_mem_first '\n' file
      have htake (e : List Char) (he : e = [] ∨ e = ['\n']) :=
        take_line_plain hfirst hbreak he line_raw b file.length
      rcases first_cases '\n' file with ⟨hlast, hnil⟩ | ⟨rest, hline, hrest⟩
      · -- the last line, without a line break
        obtain ⟨raw, hraw⟩ := htake [] (Or.inl rfl)
        rw [← hlast] at hbreak
        rw [List.append_nil, ← hlast] at hraw
        rw [← hlast] at hfirst
        rw [taken_step hfile (fgets_last hbreak hfirst.short) hraw,
          python_lines_step hfile (takeWhile_self hbreak),
          List.take_of_length_le (Nat.le_succ _), List.drop_eq_nil_of_le (Nat.le_succ _)]
        cases n <;> cases n' <;> rfl
      · -- a line and what comes behind its line break
        rw [hrest] at hothers
        generalize first '\n' file = line at hline hfirst hbreak htake
        subst hline
        rw [List.length_append, List.length_cons] at hlen hn hn'
        have hwhole : (line ++ '\n' :: rest).take (line.length + 1) = line ++ ['\n'] := by
          rw [List.take_append, List.take_of_length_le (Nat.le_succ _)]
          simp
        have hdrop : (line ++ '\n' :: rest).drop (line.length + 1) = rest := by
          rw [List.drop_append, List.drop_eq_nil_of_le (Nat.le_succ _)]
          simp
        rw [python_lines_step hfile (takeWhile_append_cons hbreak rest), hwhole, hdrop, hfirst.ends,
          count_code_break]
        rcases Nat.lt_or_eq_of_le hfirst.short with hshort | hfull
        · obtain ⟨raw, hraw⟩ := htake ['\n'] (Or.inr rfl)
          have hih : taken n raw (count_code .code b line) rest
              = python_lines n' .code (count_code .code b line) rest :=
            ih rest.length (by omega) hothers (by omega) (by omega) raw _ rfl
          rw [taken_step hfile (fgets_line hbreak hshort rest) hraw, hih]
        · -- the line break is read by itself and passed over
          obtain ⟨raw, hraw⟩ := htake [] (Or.inl rfl)
          rw [List.append_nil] at hraw
          obtain ⟨n, rfl⟩ : ∃ k, n = k + 1 := ⟨n - 1, by omega⟩
          obtain ⟨raw', hraw'⟩ := take_line_plain plain_nil List.not_mem_nil (Or.inr rfl) raw
            (count_code .code b line) ('\n' :: rest).length
          have hih : taken n raw' (count_code .code b line) rest
              = python_lines n' .code (count_code .code b line) rest :=
            ih rest.length (by omega) hothers (by omega) (by omega) raw' _ rfl
          have hbreak_line : fgets 1024 ('\n' :: rest) = (['\n'], rest) :=
            fgets_line List.not_mem_nil (by decide) rest
          rw [taken_step hfile (fgets_full hbreak hfull rest) hraw,
            taken_step (List.cons_ne_nil _ _) hbreak_line hraw']
          exact congrArg _ hih

/-- A file of plain lines is put together as it should be. -/
theorem transpile_plain_file (hplain : ∀ line ∈ file.splitOn '\n', Plain line)
    (hfits : ∀ call ∈ python_calls file, call.line.length < 4096) (line_raw : List Char) :
    transpile_file line_raw file = some (python_calls file) := by
  have htaken := taken_eq hplain le_rfl le_rfl line_raw no_brackets
  rcases read_lines_cases file.length line_raw no_brackets [] 0 file with hread | ⟨-, call, hcall,
    hlong⟩
  · unfold transpile_file python_calls
    rw [hread, htaken]
  · rw [htaken] at hcall
    exact absurd (hfits call hcall) (Nat.not_lt.mpr hlong)

end File

end SysInC.PythontLines
