/-
What edits do to the text: Enter (`insert_newline_smart`) and the replacement of all occurrences
(`prompt_replace`).

Both build a line in a buffer of fixed size. The line that Enter opens is cut at 1023 bytes by
`snprintf`; a replacement has room for 2047 bytes, behind which it writes on, and what is copied
back to the line is cut at 1023. So no text is lost exactly where what is built fits in a line.
-/
import SysInC.TeditFiles
import Mathlib.Data.List.TakeDrop

set_option autoImplicit false

namespace SysInC.Tedit

open SysInC.PartialRun SysInC.CString

/-! ## Replacing the leftmost occurrence, again and again -/

/-- `out` is the text with every occurrence replaced, each the leftmost in what is left. -/
inductive Replaced (find_str rep_str : List UInt8) : List UInt8 → List UInt8 → Prop
  | done {p : List UInt8} (habsent : ∀ front rest, p ≠ front ++ (find_str ++ rest)) :
    Replaced find_str rep_str p p
  | next {front rest out : List UInt8}
    (hfirst : ∀ front' rest', front ++ (find_str ++ rest) = front' ++ (find_str ++ rest') →
      front.length ≤ front'.length) (hrest : Replaced find_str rep_str rest out) :
    Replaced find_str rep_str (front ++ (find_str ++ rest)) (front ++ (rep_str ++ out))

variable {find_str rep_str : List UInt8}

theorem strstr_absent {s : List UInt8} (h : strstr find_str s = none) :
    ∀ front rest, s ≠ front ++ (find_str ++ rest) := by
  induction s with
  | nil =>
    intro front rest heq
    rw [strstr] at h
    split at h
    · cases h
    · next hne => exact hne (List.append_eq_nil_iff.mp (List.append_eq_nil_iff.mp heq.symm).2).1
  | cons c s ih =>
    rw [strstr] at h
    split at h
    · cases h
    · next hfront =>
      intro front rest heq
      cases front with
      | nil => exact hfront (List.isPrefixOf_iff_prefix.mpr ⟨rest, heq.symm⟩)
      | cons d front =>
        obtain ⟨-, heq⟩ := List.cons.inj heq
        exact ih (Option.map_eq_none_iff.mp h) front rest heq

theorem strstr_first {s : List UInt8} {k : ℕ} (h : strstr find_str s = some k) :
    s = s.take k ++ (find_str ++ s.drop (k + find_str.length)) ∧
      ∀ front rest, s = front ++ (find_str ++ rest) → k ≤ front.length := by
  induction s generalizing k with
  | nil =>
    rw [strstr] at h
    split at h
    · next hnil =>
      obtain rfl := Option.some.inj h
      exact ⟨by simp [hnil], fun _ _ _ => Nat.zero_le _⟩
    · cases h
  | cons c s ih =>
    rw [strstr] at h
    split at h
    · next hfront =>
      obtain rfl := Option.some.inj h
      obtain ⟨rest, hrest⟩ := List.isPrefixOf_iff_prefix.mp hfront
      refine ⟨?_, fun _ _ _ => Nat.zero_le _⟩
      rw [List.take_zero, List.nil_append, Nat.zero_add, ← hrest, List.drop_left]
    · next hfront =>
      obtain ⟨j, hj, rfl⟩ := Option.map_eq_some_iff.mp h
      obtain ⟨hsplit, hleast⟩ := ih hj
      constructor
      · rw [Nat.add_right_comm, List.take_succ_cons, List.drop_succ_cons, List.cons_append,
          ← hsplit]
      · intro front rest heq
        cases front with
        | nil => exact absurd (List.isPrefixOf_iff_prefix.mpr ⟨rest, heq.symm⟩) hfront
        | cons d front =>
          obtain ⟨-, heq⟩ := List.cons.inj heq
          exact Nat.succ_le_succ (hleast front rest heq)

/-- The loop of `prompt_replace` does so, with a turn for every byte. -/
theorem replaced_spec (hfind : find_str ≠ []) {fuel : ℕ} {p : List UInt8} (h : p.length ≤ fuel) :
    Replaced find_str rep_str p (replaced find_str rep_str fuel p) := by
  induction fuel generalizing p with
  | zero =>
    obtain rfl := List.eq_nil_of_length_eq_zero (Nat.le_zero.mp h)
    refine Replaced.done fun front rest heq => hfind ?_
    exact (List.append_eq_nil_iff.mp (List.append_eq_nil_iff.mp heq.symm).2).1
  | succ fuel ih =>
    rw [replaced]
    cases hfound : strstr find_str p with
    | none => exact Replaced.done (strstr_absent hfound)
    | some k =>
      obtain ⟨hsplit, hleast⟩ := strstr_first hfound
      have hk : (p.take k).length = k := by
        have hle := strstr_add_le hfound
        rw [List.length_take]
        omega
      have hpos := List.length_pos_iff.mpr hfind
      have hrest : (p.drop (k + find_str.length)).length ≤ fuel := by
        rw [List.length_drop]
        omega
      have hnext : Replaced find_str rep_str
          (p.take k ++ (find_str ++ p.drop (k + find_str.length)))
          (p.take k ++ (rep_str ++
            replaced find_str rep_str fuel (p.drop (k + find_str.length)))) := by
        refine Replaced.next ?_ (ih hrest)
        rw [← hsplit, hk]
        exact hleast
      dsimp only
      rw [← hsplit] at hnext
      rwa [List.append_assoc]

theorem Replaced.unique {p a b : List UInt8} (ha : Replaced find_str rep_str p a)
    (hb : Replaced find_str rep_str p b) : a = b := by
  induction ha generalizing b with
  | done habsent =>
    cases hb with
    | done => rfl
    | next => exact absurd rfl (habsent _ _)
  | @next front rest out hfirst hrest ih =>
    generalize hp : front ++ (find_str ++ rest) = p at hb
    cases hb with
    | done habsent => exact absurd hp.symm (habsent front rest)
    | @next front' rest' out' hfirst' hrest' =>
      -- both occurrences are the leftmost one
      have hle := hfirst front' rest' hp
      have hge := hfirst' front rest hp.symm
      obtain ⟨rfl, hrests⟩ := List.append_inj hp (Nat.le_antisymm hle hge)
      obtain rfl := List.append_cancel_left hrests
      rw [ih hrest']

theorem replaced_iff (hfind : find_str ≠ []) (p out : List UInt8) :
    Replaced find_str rep_str p out ↔ out = replaced find_str rep_str p.length p := by
  have hspec : Replaced find_str rep_str p (replaced find_str rep_str p.length p) :=
    replaced_spec hfind le_rfl
  constructor
  · intro h
    exact h.unique hspec
  · rintro rfl
    exact hspec

/-! ## The lines behind Enter -/

/-- The text of line `i`. -/
def at_line (lines : Lines) (i : ℕ) : List UInt8 := text (lines (Fin.ofNat MAX_LINES i))

theorem ofNat_eq {i : ℕ} (hi : i < MAX_LINES) : Fin.ofNat MAX_LINES i = ⟨i, hi⟩ :=
  Fin.ext (Nat.mod_eq_of_lt hi)

theorem at_line_eq {lines : Lines} {i : ℕ} (hi : i < MAX_LINES) :
    at_line lines i = text (lines ⟨i, hi⟩) := by
  rw [at_line, ofNat_eq hi]

theorem at_line_update {lines : Lines} {i j : ℕ} (hi : i < MAX_LINES) (hj : j < MAX_LINES)
    (line : Buf MAX_LINE_LEN) :
    at_line (Function.update lines ⟨i, hi⟩ line) j = if j = i then text line else at_line lines j := by
  rw [at_line_eq hj, at_line_eq hj]
  split
  · next heq =>
    subst heq
    rw [Function.update_self]
  · next hne => rw [Function.update_of_ne fun heq => hne (congrArg Fin.val heq)]

theorem move_line_at {lines lines' : Lines} (h : AllClosed lines) {dst src : ℕ}
    (hdst : dst < MAX_LINES) (hsrc : src < MAX_LINES)
    (hm : move_line lines dst src = some lines') {j : ℕ} (hj : j < MAX_LINES) :
    at_line lines' j = if j = dst then at_line lines src else at_line lines j := by
  obtain ⟨hframe, htext⟩ := move_line_text h hdst hsrc hm
  rw [at_line_eq hj, at_line_eq hj, at_line_eq hsrc]
  split
  · next heq =>
    subst heq
    exact htext
  · next hne => rw [hframe ⟨j, hj⟩ hne]

/-- The lines from `first` on move down by one, the last of them first. -/
theorem move_lines_down {first : ℕ} (hfirst : 0 < first) (m : ℕ) {lines lines' : Lines}
    (h : AllClosed lines) (hlast : first + m ≤ MAX_LINES)
    (hm : (List.range' first m).reverse.foldlM (fun lines i => move_line lines i (i - 1)) lines =
      some lines') {j : ℕ} (hj : j < MAX_LINES) :
    at_line lines' j =
      if first ≤ j ∧ j < first + m then at_line lines (j - 1) else at_line lines j := by
  induction m generalizing lines with
  | zero =>
    obtain rfl := Option.some.inj hm
    rw [if_neg (by omega)]
  | succ m ih =>
    rw [List.range'_concat, Nat.one_mul, List.reverse_concat, List.foldlM_cons] at hm
    obtain ⟨mid, hmid, hm⟩ := Option.bind_eq_some_iff.mp hm
    have hclosed := ((move_line_returns h (by omega) (by omega)).2 mid hmid).2
    have hat : ∀ {j : ℕ}, j < MAX_LINES → at_line mid j =
        if j = first + m then at_line lines (first + m - 1) else at_line lines j :=
      fun hj => move_line_at h (by omega) (by omega) hmid hj
    rw [ih hclosed (by omega) hm, hat hj, hat (show j - 1 < MAX_LINES by omega)]
    by_cases hjm : j = first + m
    · subst hjm
      rw [if_neg (by omega), if_pos rfl, if_pos (by omega)]
    · rw [if_neg hjm]
      by_cases hmoved : first ≤ j ∧ j < first + m
      · rw [if_pos hmoved, if_neg (by omega), if_pos (by omega)]
      · rw [if_neg hmoved, if_neg (by omega)]

/-! ## Enter -/

/-- What the new line begins with: the blanks of the line, as many as are kept, and four more behind
the opening of a block. -/
def indentation (s : List UInt8) (col : ℕ) : List UInt8 :=
  (s.takeWhile is_blank).take (64 - 8) ++
    List.replicate (if 0 < col ∧ (s[col - 1]?).any opens_block then 4 else 0) 32

theorem zero_notMem_indentation (line : List UInt8) (col : ℕ) : 0 ∉ indentation line col := by
  intro hmem
  rcases List.mem_append.mp hmem with hmem | hmem
  · exact absurd (List.all_eq_true.mp List.all_takeWhile 0 (List.mem_of_mem_take hmem)) (by decide)
  · exact absurd (List.eq_of_mem_replicate hmem) (by decide)

/-- Where the line of the cursor is split, and what the new line is. -/
def split_lines (e : Editor) (new_line : List UInt8) : List (List UInt8) :=
  (texts e.lines e.line_count).take e.cur_line ++
    ((cur_text e).take e.cur_col :: new_line :: (texts e.lines e.line_count).drop (e.cur_line + 1))

theorem indent_of_eq {prev : Buf MAX_LINE_LEN} (h : Closed prev) :
    indent_of prev = ((text prev).takeWhile is_blank).take (64 - 8) := by
  obtain ⟨rest, hval⟩ := text_split h.zero_mem
  rw [indent_of, hval]
  congr 1
  induction text prev with
  | nil => rw [List.nil_append, List.takeWhile_cons_of_neg (by decide), List.takeWhile_nil]
  | cons c s ih =>
    cases hc : is_blank c with
    | true => rw [List.cons_append, List.takeWhile_cons_of_pos hc, List.takeWhile_cons_of_pos hc, ih]
    | false =>
      have hneg : ¬ is_blank c = true := by rw [hc]; exact Bool.false_ne_true
      rw [List.cons_append, List.takeWhile_cons_of_neg hneg, List.takeWhile_cons_of_neg hneg]

/-- The cursor splits the text of a line. -/
theorem split_at {line : Buf MAX_LINE_LEN} (h : Closed line) {col : ℕ}
    (hcol : col ≤ (text line).length) :
    c_str line col = some ((text line).drop col) ∧
      ∃ line', put line col 0 = some line' ∧ Closed line' ∧ text line' = (text line).take col := by
  obtain ⟨rest, hval⟩ := text_split h.zero_mem
  have hlt : col < MAX_LINE_LEN := hcol.trans_lt h.text_length_lt
  have hfront : 0 ∉ (text line).take col := fun hmem =>
    zero_notMem_text line (List.mem_of_mem_take hmem)
  have hbehind : 0 ∉ (text line).drop col := fun hmem =>
    zero_notMem_text line (List.mem_of_mem_drop hmem)
  constructor
  · rw [h.c_str hlt, hval, List.drop_append_of_le_length hcol, text_of_append_zero hbehind]
  · obtain ⟨line', hput, hline'⟩ := h.put_zero hlt
    refine ⟨line', hput, hline', ?_⟩
    have htake : line.val.take col = (text line).take col := by
      rw [hval, List.take_append_of_le_length hcol]
    rw [text, (write_some hput).2, htake, List.append_assoc]
    exact text_of_append_zero hfront _

theorem extra_eq {line : Buf MAX_LINE_LEN} (h : Closed line) {col : ℕ}
    (hcol : col ≤ (text line).length) :
    (if 0 < col then (line.val[col - 1]?).map fun last_c => if opens_block last_c then 4 else 0
      else some 0) =
      some (if 0 < col ∧ ((text line)[col - 1]?).any opens_block then 4 else 0) := by
  obtain ⟨rest, hval⟩ := text_split h.zero_mem
  by_cases hpos : 0 < col
  · have hlt : col - 1 < (text line).length := by omega
    rw [if_pos hpos, hval, List.getElem?_append_left hlt, List.getElem?_eq_getElem hlt,
      Option.map_some, Option.any_some]
    simp only [hpos, true_and]
  · rw [if_neg hpos, if_neg fun h => hpos h.1]

theorem texts_eq_map (lines : Lines) (n : ℕ) : texts lines n = (List.range n).map (at_line lines) :=
  rfl

/-- The texts of lines that have one more, with another line at `cur` and a new one behind. -/
theorem texts_split {lines lines' : Lines} {line_count cur : ℕ} (hcur : cur < line_count)
    {line new_line : List UInt8}
    (hlines : ∀ j < line_count + 1, at_line lines' j =
      if j < cur then at_line lines j
      else if j = cur then line
      else if j = cur + 1 then new_line
      else at_line lines (j - 1)) :
    texts lines' (line_count + 1) = (texts lines line_count).take cur ++
      (line :: new_line :: (texts lines line_count).drop (cur + 1)) := by
  rw [texts_eq_map, texts_eq_map]
  apply List.ext_getElem
  · simp only [List.length_map, List.length_range, List.length_append, List.length_take,
      List.length_cons, List.length_drop]
    omega
  · intro j hj hj'
    rw [List.length_map, List.length_range] at hj
    have htake : (((List.range line_count).map (at_line lines)).take cur).length = cur := by
      rw [List.length_take, List.length_map, List.length_range]
      omega
    rw [List.getElem_map, List.getElem_range, hlines j hj]
    by_cases hlt : j < cur
    · rw [if_pos hlt, List.getElem_append_left (by omega), List.getElem_take, List.getElem_map,
        List.getElem_range]
    · rw [if_neg hlt, List.getElem_append_right (by omega)]
      simp only [htake]
      obtain ⟨d, rfl⟩ := Nat.exists_eq_add_of_le (Nat.le_of_not_lt hlt)
      simp only [Nat.add_sub_cancel_left]
      rcases d with _ | _ | d
      · rw [if_pos (Nat.add_zero cur), List.getElem_cons_zero]
      · rw [if_neg (by omega), if_pos (by omega), List.getElem_cons_succ, List.getElem_cons_zero]
      · rw [if_neg (by omega), if_neg (by omega), List.getElem_cons_succ, List.getElem_cons_succ,
          List.getElem_drop, List.getElem_map, List.getElem_range]
        congr 1
        omega

/-- **Enter.** The text behind the cursor goes to a line of its own behind the indentation, as much
of it as fits. -/
theorem insert_newline_smart_texts {e : Editor} (h : Inv e)
    (hcol : e.cur_col ≤ (cur_text e).length) (hcount : e.line_count < MAX_LINES - 1) :
    ∃ e', insert_newline_smart e = some e' ∧ texts e'.lines e'.line_count = split_lines e
      ((indentation (cur_text e) e.cur_col ++ (cur_text e).drop e.cur_col).take
        (MAX_LINE_LEN - 1)) := by
  have hline := h.text.line_lt_max
  have hline_lt := h.text.line_lt
  have hmax := max_lines_eq
  have hclosed := h.text.closed ⟨e.cur_line, hline⟩
  have hcur := cur_text_eq hline
  rw [hcur] at hcol
  obtain ⟨e₁, he₁, hs⟩ := save_undo_state_spec h
  obtain ⟨lines, hopen⟩ :=
    (open_line_returns h.text.closed (show e.line_count < MAX_LINES by omega) e.cur_line).1 trivial
  have hlines := ((open_line_returns h.text.closed (show e.line_count < MAX_LINES by omega)
    e.cur_line).2 lines hopen).2
  have hdown : ∀ {j : ℕ}, j < MAX_LINES → at_line lines j = _ := fun hj =>
    move_lines_down (Nat.succ_pos (e.cur_line + 1)) _ h.text.closed (by omega) hopen hj
  have hsame : lines ⟨e.cur_line, hline⟩ = e.lines ⟨e.cur_line, hline⟩ := by
    refine (move_lines_frame h.text.closed (· - 1) (e.cur_line + 2) (fun i hi => ?_) hopen).2
      ⟨e.cur_line, hline⟩ (Nat.lt_add_of_pos_right Nat.two_pos)
    have hmem := List.mem_range'_1.mp (List.mem_reverse.mp hi)
    omega
  obtain ⟨hrest, line', hput, hline', htext⟩ := split_at hclosed hcol
  have hnext : e.cur_line + 1 < MAX_LINES := by omega
  have hlines' := hlines.update ⟨e.cur_line, hline⟩ hline'
  obtain ⟨next, hcpy, hnext', hnext_text⟩ := (hlines' ⟨e.cur_line + 1, hnext⟩).strncpy
    ((indentation (text (e.lines ⟨e.cur_line, hline⟩)) e.cur_col ++
      (text (e.lines ⟨e.cur_line, hline⟩)).drop e.cur_col).take (MAX_LINE_LEN - 1))
  have hzero : 0 ∉ (indentation (text (e.lines ⟨e.cur_line, hline⟩)) e.cur_col ++
      (text (e.lines ⟨e.cur_line, hline⟩)).drop e.cur_col).take (MAX_LINE_LEN - 1) := by
    intro hmem
    rcases List.mem_append.mp (List.mem_of_mem_take hmem) with hmem | hmem
    · exact zero_notMem_indentation _ _ hmem
    · exact zero_notMem_text _ (List.mem_of_mem_drop hmem)
  rw [insert_newline_smart, if_neg (by omega), he₁, Option.bind_some, hs.lines, hs.line_count,
    hs.cur_line, hs.cur_col, peek_of_lt hline, Option.bind_some]
  dsimp only
  rw [extra_eq hclosed hcol, Option.bind_some, hopen, Option.bind_some, peek_of_lt hline,
    Option.bind_some, hsame, hrest, Option.bind_some, hput, Option.bind_some, poke_of_lt hline,
    Option.bind_some, peek_of_lt hnext, Option.bind_some, indent_of_eq hclosed, ← indentation,
    hcpy, Option.bind_some, poke_of_lt hnext, Option.bind_some]
  refine ⟨_, rfl, ?_⟩
  rw [split_lines, hcur]
  refine texts_split hline_lt fun j hj => ?_
  have hj' : j < MAX_LINES := by omega
  rw [at_line_update hnext hj', at_line_update hline hj', hdown hj', htext, hnext_text hzero,
    List.take_take, Nat.min_self]
  by_cases hlt : j < e.cur_line
  · rw [if_pos hlt, if_neg (by omega), if_neg (by omega), if_neg (by omega)]
  rw [if_neg hlt]
  by_cases hat : j = e.cur_line
  · rw [if_pos hat, if_neg (by omega), if_pos hat]
  rw [if_neg hat, if_neg hat]
  by_cases hnew : j = e.cur_line + 1
  · rw [if_pos hnew, if_pos hnew]
  · rw [if_neg hnew, if_neg hnew, if_pos (by omega)]

/-- Enter keeps the text: the line is split at the cursor, with the indentation in front of what is
behind it. If there is no room for another line, nothing happens. -/
def KeepsText (e : Editor) : Prop :=
  ∃ e', insert_newline_smart e = some e' ∧
    if MAX_LINES - 1 ≤ e.line_count then e' = e
    else texts e'.lines e'.line_count =
      split_lines e (indentation (cur_text e) e.cur_col ++ (cur_text e).drop e.cur_col)

/-- There is no room for another line, or the new one fits. -/
def NewlineFits (e : Editor) : Prop :=
  MAX_LINES - 1 ≤ e.line_count ∨
    (indentation (cur_text e) e.cur_col).length + ((cur_text e).length - e.cur_col) ≤
      MAX_LINE_LEN - 1

theorem keepsText_iff {e : Editor} (h : Inv e) (hcol : e.cur_col ≤ (cur_text e).length) :
    KeepsText e ↔ NewlineFits e := by
  unfold KeepsText NewlineFits
  by_cases hfull : MAX_LINES - 1 ≤ e.line_count
  · simp only [if_pos hfull]
    refine iff_of_true ⟨e, ?_, rfl⟩ (Or.inl hfull)
    rw [insert_newline_smart, if_pos hfull]
  simp only [if_neg hfull]
  obtain ⟨e', he', htexts⟩ := insert_newline_smart_texts h hcol (Nat.lt_of_not_le hfull)
  rw [or_iff_right hfull]
  have hiff : (∃ f, insert_newline_smart e = some f ∧ texts f.lines f.line_count = split_lines e
      (indentation (cur_text e) e.cur_col ++ (cur_text e).drop e.cur_col)) ↔
      (indentation (cur_text e) e.cur_col ++ (cur_text e).drop e.cur_col).take (MAX_LINE_LEN - 1) =
        indentation (cur_text e) e.cur_col ++ (cur_text e).drop e.cur_col := by
    constructor
    · rintro ⟨f, hf, hsplit⟩
      obtain rfl := Option.some.inj (he'.symm.trans hf)
      rw [htexts, split_lines, split_lines, List.append_cancel_left_eq] at hsplit
      exact (List.cons.inj (List.cons.inj hsplit).2).1
    · intro hsame
      exact ⟨e', he', by rw [htexts, hsame]⟩
  rw [hiff, List.take_eq_self_iff, List.length_append, List.length_drop]

/-! ## Replacing all -/

/-- Every line has its occurrences replaced, or stays as it was where the result would not fit. -/
def ReplacesAll (keys find_str rep_str : List UInt8) (e : Editor) : Prop :=
  ∃ e', prompt_replace keys e = some e' ∧ e'.line_count = e.line_count ∧
    ∀ l < e.line_count, ∃ out, Replaced find_str rep_str (line_text e l) out ∧
      line_text e' l = if out.length ≤ MAX_LINE_LEN - 1 then out else line_text e l

/-- The line fits with its occurrences replaced; or it does not, but `temp_line` has room, and what
is copied back are the bytes that the line had. -/
def LineFits (find_str rep_str line : List UInt8) : Prop :=
  ∃ out, Replaced find_str rep_str line out ∧ (out.length ≤ MAX_LINE_LEN - 1 ∨
    out.length < MAX_LINE_LEN * 2 ∧ out.take (MAX_LINE_LEN - 1) = line)

def LinesFit (find_str rep_str : List UInt8) (e : Editor) : Prop :=
  ∀ l < e.line_count, LineFits find_str rep_str (line_text e l)

theorem replace_all_lines (hrep : 0 ∉ rep_str) {e e' : Editor} (h : Inv e)
    (he : replace_all find_str rep_str e = some e') :
    e'.line_count = e.line_count ∧ ∀ l < e.line_count, line_text e' l =
      (replaced find_str rep_str (line_text e l).length (line_text e l)).take
        (MAX_LINE_LEN - 1) := by
  obtain ⟨e₁, he₁, he⟩ := Option.bind_eq_some_iff.mp he
  have hs := saved h he₁
  rw [hs.lines, hs.line_count] at he
  obtain ⟨r, hr, he⟩ := Option.bind_eq_some_iff.mp he
  have hafter : e'.lines = r.1 ∧ e'.line_count = e.line_count := by
    split at he
    · rw [← Option.some.inj he]
      exact ⟨rfl, rfl⟩
    · rw [← Option.some.inj he]
      exact ⟨rfl, rfl⟩
  refine ⟨hafter.2, fun l hl => ?_⟩
  have htext := replace_lines_text hrep h.text.closed h.text.count_le (Fin.ofNat MAX_LINES l) hr
  have hlt : (Fin.ofNat MAX_LINES l).val < e.line_count := by
    rwa [ofNat_eq (hl.trans_le h.text.count_le)]
  rw [if_pos hlt] at htext
  rw [line_text, hafter.1]
  exact htext

theorem replacesAll_iff {keys : List UInt8}
    (hkeys : replace_strings keys = some (find_str, rep_str)) (hfind : find_str ≠ []) {e : Editor}
    (h : Inv e) :
    ReplacesAll keys find_str rep_str e ↔ LinesFit find_str rep_str e := by
  have hrep := replace_strings_printable hkeys
  have hprompt : prompt_replace keys e = replace_all find_str rep_str e := by
    rw [prompt_replace, hkeys]
  have hreturns := replace_all_returns find_str hrep h
  have hlength : ∀ l, (line_text e l).length ≤ MAX_LINE_LEN - 1 := fun l =>
    Nat.le_sub_one_of_lt (h.text.closed _).text_length_lt
  unfold ReplacesAll LinesFit LineFits
  rw [hprompt]
  simp only [replaced_iff hfind, exists_eq_left]
  constructor
  · rintro ⟨e', he', -, hall⟩ l hl
    obtain ⟨-, htexts⟩ := replace_all_lines hrep h he'
    have hfits : FitsTemp find_str rep_str (line_text e l) := (hreturns.2 e' he').1 l hl
    have hline := hall l hl
    rw [htexts l hl] at hline
    split at hline
    · next hshort => exact Or.inl hshort
    · exact Or.inr ⟨hfits, hline⟩
  · intro hall
    have hfit : AllFit find_str rep_str e := by
      intro l hl
      rw [FitsTemp, ← line_text]
      have hmax := max_line_len_eq
      rcases hall l hl with hshort | ⟨htemp, -⟩
      · omega
      · exact htemp
    obtain ⟨e', he'⟩ := hreturns.1 hfit
    obtain ⟨hcount, htexts⟩ := replace_all_lines hrep h he'
    refine ⟨e', he', hcount, fun l hl => ?_⟩
    rw [htexts l hl]
    split
    · next hshort => exact List.take_of_length_le hshort
    · next hlong =>
      rcases hall l hl with hshort | ⟨-, hsame⟩
      · exact absurd hshort hlong
      · exact hsame

theorem replace_strings_find {keys : List UInt8}
    (h : replace_strings keys = some (find_str, rep_str)) : find_str ≠ [] := by
  obtain ⟨t, -, h⟩ := Option.bind_eq_some_iff.mp h
  split at h
  · cases h
  · next hne =>
    obtain ⟨r, -, h⟩ := Option.map_eq_some_iff.mp h
    obtain ⟨rfl, -⟩ := Prod.mk.inj h
    exact hne

/-- **Edits.** Enter keeps the text and a replacement replaces all, exactly where the new line fits
and every line with its occurrences replaced does. -/
theorem edits_keep_text_iff {e : Editor} (h : Inv e) (hcol : e.cur_col ≤ (cur_text e).length)
    {keys : List UInt8} (hkeys : replace_strings keys = some (find_str, rep_str)) :
    KeepsText e ∧ ReplacesAll keys find_str rep_str e ↔
      NewlineFits e ∧ LinesFit find_str rep_str e :=
  and_congr (keepsText_iff h hcol) (replacesAll_iff hkeys (replace_strings_find hkeys) h)

/-- The line `a`, of which `a` is replaced by `b`. -/
theorem edits_keep_text_short : ∃ e, load_file (some [97]) blank = some e ∧
    (KeepsText e ∧ ReplacesAll [97, 13, 98, 13] [97] [98] e ↔
      NewlineFits e ∧ LinesFit [97] [98] e) := by
  obtain ⟨e, he, hsettled⟩ := load_file_settled (some [97])
  exact ⟨e, he, edits_keep_text_iff hsettled.inv hsettled.col_le rfl⟩

/-- 33 times `a`, each to be replaced by 63 times `b`: more than `temp_line` has room for. -/
theorem replacement_overflows : ∃ e, load_file (some (List.replicate 33 97)) blank = some e ∧
    ¬ ReplacesAll (97 :: 13 :: List.replicate 63 98 ++ [13]) [97] (List.replicate 63 98) e := by
  obtain ⟨e, he, hsettled⟩ := load_file_settled (some (List.replicate 33 97))
  have hkeys : replace_strings (97 :: 13 :: List.replicate 63 98 ++ [13]) =
      some ([97], List.replicate 63 98) := by
    decide +kernel
  have htexts := load_file_texts he
  have hrows : (if rows (List.replicate 33 (97 : UInt8)).length (List.replicate 33 97) = [] then [[]]
      else (rows (List.replicate 33 (97 : UInt8)).length (List.replicate 33 97)).take MAX_LINES) =
      [List.replicate 33 97] := by
    decide +kernel
  rw [hrows, texts_eq_map] at htexts
  have hcount : e.line_count = 1 := by
    have hlen := congrArg List.length htexts
    rwa [List.length_map, List.length_range] at hlen
  have hline : line_text e 0 = List.replicate 33 97 := by
    rw [hcount] at htexts
    exact (List.cons.inj htexts).1
  have hlong : (replaced [97] (List.replicate 63 98) (List.replicate 33 (97 : UInt8)).length
      (List.replicate 33 97)).length = 2079 := by
    decide +kernel
  refine ⟨e, he, fun hall => ?_⟩
  obtain ⟨out, hout, hfits⟩ := (replacesAll_iff hkeys (List.cons_ne_nil _ _) hsettled.inv).mp hall 0
    (by omega)
  rw [hline, replaced_iff (List.cons_ne_nil _ _)] at hout
  have hmax := max_line_len_eq
  rw [hout, hlong] at hfits
  rcases hfits with hshort | ⟨htemp, -⟩
  · omega
  · omega

end SysInC.Tedit
