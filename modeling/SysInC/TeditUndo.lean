/-
The undo ring is a stack of at most `MAX_UNDO` snapshots: an edit pushes the state that it starts
from, before it changes anything, and an undo goes back to the latest snapshot.

What is compared is the text of the lines, what stands in front of their NULs: `strncpy` clears
what stands behind. Two things break the history, and both are writes outside of a buffer. The
cursor may be left behind the end of its line by a replacement, which makes the next length of
`memmove` wrap; and a line whose occurrences are replaced may not fit `temp_line`.
-/
import SysInC.Tedit
import SysInC.RingStack

set_option autoImplicit false

namespace SysInC.Tedit

open SysInC.PartialRun SysInC.CString SysInC.RingStack

/-! ## The abstract editor -/

/-- What an undo gives back. -/
structure Snapshot where
  texts : List (List UInt8)
  line_count : ℕ
  cur_line : ℕ
  cur_col : ℕ

/-- The texts of the first `line_count` lines. -/
def texts (lines : Lines) (line_count : ℕ) : List (List UInt8) :=
  (List.range line_count).map fun i => text (lines (Fin.ofNat MAX_LINES i))

def UndoState.view (st : UndoState) : Snapshot :=
  ⟨texts st.lines st.line_count, st.line_count, st.cur_line, st.cur_col⟩

def Editor.view (e : Editor) : Snapshot :=
  ⟨texts e.lines e.line_count, e.line_count, e.cur_line, e.cur_col⟩

/-- The snapshots in the ring, the latest first. -/
def Editor.snapshots (e : Editor) : List Snapshot :=
  (contents e.undo_history e.undo_head e.undo_count).map UndoState.view

/-- An edit changes nothing or has pushed what was there. -/
def EditStep (e e' : Editor) : Prop :=
  (e'.view = e.view ∧ e'.snapshots = e.snapshots) ∨
    e'.snapshots = (e.view :: e.snapshots).take MAX_UNDO

/-- A movement of the cursor touches neither the lines nor the snapshots. -/
def MoveStep (e e' : Editor) : Prop :=
  e'.lines = e.lines ∧ e'.line_count = e.line_count ∧ e'.snapshots = e.snapshots

/-- An undo goes back to the latest snapshot, if there is one. -/
def UndoStep (e e' : Editor) : Prop :=
  match e.snapshots with
  | [] => e'.view = e.view ∧ e'.snapshots = []
  | latest :: earlier => e'.view = latest ∧ e'.snapshots = earlier

/-- What a step of the editor does to a bounded stack of snapshots. -/
def HistoryStep (e : Editor) (op : Op) (e' : Editor) : Prop :=
  match op with
  | .insert_char _ => EditStep e e'
  | .insert_newline_smart => EditStep e e'
  | .delete_char => EditStep e e'
  | .duplicate_current_line => EditStep e e'
  | .delete_current_line => EditStep e e'
  | .prompt_replace _ => EditStep e e'
  | .perform_undo => UndoStep e e'
  | .move_up => MoveStep e e'
  | .move_down => MoveStep e e'
  | .move_right => MoveStep e e'
  | .move_left => MoveStep e e'
  | .prompt_search _ => MoveStep e e'
  | .prompt_goto_line _ => MoveStep e e'

/-! ## The invariant -/

def AllClosed (lines : Lines) : Prop := ∀ i, Closed (lines i)

/-- There is a line at the cursor, and a byte. -/
structure TextOk (lines : Lines) (line_count cur_line cur_col : ℕ) : Prop where
  closed : AllClosed lines
  count_le : line_count ≤ MAX_LINES
  line_lt : cur_line < line_count
  col_lt : cur_col < MAX_LINE_LEN

structure RingOk (history : Fin MAX_UNDO → UndoState) (head count : ℕ) : Prop where
  head_lt : head < MAX_UNDO
  count_le : count ≤ MAX_UNDO
  closed : ∀ k, AllClosed (history k).lines
  snapshot : ∀ st ∈ contents history head count,
    TextOk st.lines st.line_count st.cur_line st.cur_col

structure Inv (e : Editor) : Prop where
  text : TextOk e.lines e.line_count e.cur_line e.cur_col
  ring : RingOk e.undo_history e.undo_head e.undo_count

/-! ## Lines -/

theorem AllClosed.update {lines : Lines} (h : AllClosed lines) (i : Fin MAX_LINES)
    {line : Buf MAX_LINE_LEN} (hline : Closed line) : AllClosed (Function.update lines i line) := by
  intro j
  by_cases hij : j = i
  · rw [hij, Function.update_self]
    exact hline
  · rw [Function.update_of_ne hij]
    exact h j

/-- A copy of `line_count` lines. -/
theorem copy_lines_spec {src dst : Lines} (hdst : AllClosed dst) (hsrc : AllClosed src)
    {line_count : ℕ} (hle : line_count ≤ MAX_LINES) :
    ∃ dst', copy_lines src dst line_count = some dst' ∧ AllClosed dst' ∧
      texts dst' line_count = texts src line_count := by
  have hbody (i : ℕ) (hi : i < line_count) (dst : Lines)
      (h : AllClosed dst ∧ ∀ j, j.val < i → text (dst j) = text (src j)) :
      Returns (copy_line src dst i) True fun dst' =>
        AllClosed dst' ∧ ∀ j, j.val < i + 1 → text (dst' j) = text (src j) := by
    have hlt : i < MAX_LINES := hi.trans_le hle
    obtain ⟨line, hline, hclosed, htext⟩ := (h.1 ⟨i, hlt⟩).strncpy (text (src ⟨i, hlt⟩))
    rw [copy_line, peek_of_lt hlt, Option.bind_some, peek_of_lt hlt, Option.bind_some, hline,
      Option.bind_some, poke_of_lt hlt]
    refine Returns.pure ⟨h.1.update _ hclosed, fun j hj => ?_⟩
    by_cases hji : j = ⟨i, hlt⟩
    · rw [hji, Function.update_self, htext (zero_notMem_text _)]
      exact List.take_of_length_le (Nat.le_sub_one_of_lt (hsrc ⟨i, hlt⟩).text_length_lt)
    · rw [Function.update_of_ne hji]
      have hne : j.val ≠ i := fun heq => hji (Fin.ext heq)
      exact h.2 j (by omega)
  have hloop := Returns.range hbody ⟨hdst, fun j hj => absurd hj (Nat.not_lt_zero _)⟩
  obtain ⟨dst', hcopy, hclosed, htext⟩ := hloop.iff.mpr fun _ _ => trivial
  refine ⟨dst', hcopy, hclosed, List.map_congr_left fun i hi => htext _ ?_⟩
  have hlt := List.mem_range.mp hi
  rw [Fin.val_ofNat, Nat.mod_eq_of_lt (hlt.trans_le hle)]
  exact hlt

/-! ## The ring -/

/-- What an edit finds behind `save_undo_state`: its own state, and the snapshot of it. -/
structure Saved (e e' : Editor) : Prop where
  lines : e'.lines = e.lines
  line_count : e'.line_count = e.line_count
  cur_line : e'.cur_line = e.cur_line
  cur_col : e'.cur_col = e.cur_col
  ring : RingOk e'.undo_history e'.undo_head e'.undo_count
  snapshots : e'.snapshots = (e.view :: e.snapshots).take MAX_UNDO

theorem RingOk.push {history : Fin MAX_UNDO → UndoState} {head count : ℕ}
    (h : RingOk history head count) (st : UndoState)
    (hst : TextOk st.lines st.line_count st.cur_line st.cur_col) :
    RingOk (Function.update history ⟨head, h.head_lt⟩ st) ((head + 1) % MAX_UNDO)
      (if count < MAX_UNDO then count + 1 else count) where
  head_lt := Nat.mod_lt _ (Nat.succ_pos 31)
  count_le := by
    have := h.count_le
    split <;> omega
  closed k := by
    by_cases hk : k = ⟨head, h.head_lt⟩
    · rw [hk, Function.update_self]
      exact hst.closed
    · rw [Function.update_of_ne hk]
      exact h.closed k
  snapshot s hs := by
    rw [contents_push history h.head_lt h.count_le st] at hs
    rcases List.mem_cons.mp (List.mem_of_mem_take hs) with rfl | hs
    · exact hst
    · exact h.snapshot s hs

theorem save_undo_state_spec {e : Editor} (h : Inv e) :
    ∃ e', save_undo_state e = some e' ∧ Saved e e' := by
  obtain ⟨lines, hcopy, hclosed, htexts⟩ := copy_lines_spec
    (h.ring.closed ⟨e.undo_head, h.ring.head_lt⟩) h.text.closed h.text.count_le
  have hpush := h.ring.push ⟨lines, e.line_count, e.cur_line, e.cur_col⟩
    ⟨hclosed, h.text.count_le, h.text.line_lt, h.text.col_lt⟩
  rw [save_undo_state, peek_of_lt h.ring.head_lt, Option.bind_some, hcopy, Option.bind_some,
    poke_of_lt h.ring.head_lt, Option.bind_some]
  refine ⟨_, rfl, rfl, rfl, rfl, rfl, hpush, ?_⟩
  dsimp only [Editor.snapshots]
  rw [contents_push e.undo_history h.ring.head_lt h.ring.count_le, List.map_take, List.map_cons,
    UndoState.view, htexts]
  rfl

theorem perform_undo_spec {e : Editor} (h : Inv e) :
    ∃ e', perform_undo e = some e' ∧ Inv e' ∧ UndoStep e e' := by
  by_cases hcount : e.undo_count = 0
  · have hempty : e.snapshots = [] := by
      rw [Editor.snapshots, hcount, contents_zero, List.map_nil]
    refine ⟨_, if_pos hcount, ⟨h.text, h.ring⟩, ?_⟩
    rw [UndoStep, hempty]
    exact ⟨rfl, hempty⟩
  · have hhead : (e.undo_head + MAX_UNDO - 1) % MAX_UNDO < MAX_UNDO :=
      Nat.mod_lt _ (Nat.succ_pos 31)
    have hbelow := below_zero h.ring.head_lt
    have hpop := contents_pop e.undo_history h.ring.head_lt (Nat.pos_of_ne_zero hcount)
      h.ring.count_le
    rw [← hbelow] at hpop
    -- the cell in front of the next free one holds the latest snapshot
    have hcell : Fin.ofNat MAX_UNDO ((e.undo_head + MAX_UNDO - 1) % MAX_UNDO) = ⟨_, hhead⟩ :=
      Fin.ext (Nat.mod_eq_of_lt hhead)
    rw [hcell] at hpop
    have hmem (s : UndoState) (hs : s ∈ contents e.undo_history
        ((e.undo_head + MAX_UNDO - 1) % MAX_UNDO) (e.undo_count - 1)) :
        TextOk s.lines s.line_count s.cur_line s.cur_col :=
      h.ring.snapshot s (by rw [hpop]; exact List.mem_cons_of_mem _ hs)
    have hlatest := h.ring.snapshot _ (by rw [hpop]; exact List.mem_cons_self)
    obtain ⟨lines, hcopy, hclosed, htexts⟩ := copy_lines_spec h.text.closed hlatest.closed
      hlatest.count_le
    rw [perform_undo, if_neg hcount]
    dsimp only
    rw [peek_of_lt hhead, Option.bind_some, hcopy, Option.bind_some]
    refine ⟨_, rfl, ⟨⟨hclosed, hlatest.count_le, hlatest.line_lt, hlatest.col_lt⟩,
      ⟨hhead, (Nat.sub_le _ _).trans h.ring.count_le, h.ring.closed, hmem⟩⟩, ?_⟩
    rw [UndoStep, Editor.snapshots, hpop, List.map_cons]
    refine ⟨?_, rfl⟩
    rw [Editor.view, UndoState.view, ← htexts]

/-! ## Edits -/

/-- What an edit may do behind `save_undo_state`: anything but touch the ring. -/
structure Edited (e e' : Editor) : Prop where
  text : TextOk e'.lines e'.line_count e'.cur_line e'.cur_col
  history : e'.undo_history = e.undo_history
  head : e'.undo_head = e.undo_head
  count : e'.undo_count = e.undo_count

/-- **An edit pushes first.** -/
theorem edit_returns {e : Editor} (h : Inv e) {body : Editor → Option Editor} {G : Prop}
    (hbody : ∀ e₁, Saved e e₁ → Returns (body e₁) G (Edited e₁)) :
    Returns ((save_undo_state e).bind body) G fun e' => Inv e' ∧ EditStep e e' := by
  refine (returns_of_exists (save_undo_state_spec h)).seq fun e₁ hs => ?_
  refine (hbody e₁ hs).imp Iff.rfl fun e' he => ?_
  have hring : RingOk e'.undo_history e'.undo_head e'.undo_count := by
    rw [he.history, he.head, he.count]
    exact hs.ring
  refine ⟨⟨he.text, hring⟩, Or.inr ?_⟩
  rw [← hs.snapshots, Editor.snapshots, he.history, he.head, he.count, Editor.snapshots]

/-- An edit that gives up before it changes anything. -/
theorem unchanged_returns {e : Editor} (h : Inv e) {G : Prop} (hG : G) :
    Returns (some e) G fun e' => Inv e' ∧ EditStep e e' :=
  (Returns.pure (Q := fun e' => Inv e' ∧ EditStep e e') ⟨h, Or.inl ⟨rfl, rfl⟩⟩).congr
    (iff_of_true trivial hG)

theorem TextOk.line_lt_max {lines : Lines} {line_count cur_line cur_col : ℕ}
    (h : TextOk lines line_count cur_line cur_col) : cur_line < MAX_LINES :=
  h.line_lt.trans_le h.count_le

/-- The text of the line that the cursor is in. -/
def cur_text (e : Editor) : List UInt8 := text (e.lines (Fin.ofNat MAX_LINES e.cur_line))

theorem cur_text_eq {e : Editor} (h : e.cur_line < MAX_LINES) :
    cur_text e = text (e.lines ⟨e.cur_line, h⟩) := by
  rw [cur_text, show Fin.ofNat MAX_LINES e.cur_line = ⟨e.cur_line, h⟩ from
    Fin.ext (Nat.mod_eq_of_lt h)]

theorem max_line_len_eq : MAX_LINE_LEN = 1024 := rfl

theorem max_lines_eq : MAX_LINES = 4000 := rfl

/-- A byte goes in where the cursor is not more than one byte behind the text. -/
theorem insert_char_returns (c : UInt8) {e : Editor} (h : Inv e) :
    Returns (insert_char c e)
      ((cur_text e).length < MAX_LINE_LEN - 2 → e.cur_col ≤ (cur_text e).length + 1)
      fun e' => Inv e' ∧ EditStep e e' := by
  have hline := h.text.line_lt_max
  have hclosed := h.text.closed ⟨e.cur_line, hline⟩
  have hcol := h.text.col_lt
  have hmax := max_line_len_eq
  rw [insert_char, peek_of_lt hline, Option.bind_some, hclosed.strlen, Option.bind_some,
    cur_text_eq hline]
  split
  · next hlen =>
      refine (edit_returns h fun e₁ hs => ?_).congr ⟨fun hle _ => hle, fun hle => hle hlen⟩
      rw [hs.lines, hs.cur_line, hs.cur_col]
      have hmove := hclosed.move_tail_returns (show MAX_LINE_LEN < 2 ^ 63 by omega) hcol.le
        (fun _ => show e.cur_col + 1 + _ < MAX_LINE_LEN by omega)
      refine hmove.then fun line hle hline' => ?_
      obtain ⟨line', hput, -⟩ := write_of_le line [c]
        (show e.cur_col + 1 ≤ MAX_LINE_LEN by omega)
      have hclosed' := hline'.put (by omega) hput
      rw [put, hput, Option.bind_some, poke_of_lt hline, Option.bind_some]
      refine Returns.pure ⟨⟨h.text.closed.update _ hclosed', ?_, ?_, ?_⟩, rfl, rfl, rfl⟩
      · rw [hs.line_count]
        exact h.text.count_le
      · rw [hs.line_count]
        exact h.text.line_lt
      · exact Nat.lt_of_le_of_lt (Nat.succ_le_succ hle) (by omega)
  · next hlen => exact unchanged_returns h fun hlt => absurd hlt hlen

/-! The line operations move whole lines and always return. -/

theorem move_line_returns {lines : Lines} (h : AllClosed lines) {dst src : ℕ}
    (hdst : dst < MAX_LINES) (hsrc : src < MAX_LINES) :
    Returns (move_line lines dst src) True AllClosed := by
  have hclosed := h ⟨src, hsrc⟩
  obtain ⟨line, hline, hline'⟩ := (h ⟨dst, hdst⟩).strcpy hclosed.text_length_lt
  rw [move_line, peek_of_lt hsrc, Option.bind_some, hclosed.c_str_zero, Option.bind_some,
    peek_of_lt hdst, Option.bind_some, hline, Option.bind_some, poke_of_lt hdst]
  exact Returns.pure (h.update _ hline')

theorem open_line_returns {lines : Lines} (h : AllClosed lines) {line_count : ℕ}
    (hcount : line_count < MAX_LINES) (cur_line : ℕ) :
    Returns (open_line lines line_count cur_line) True AllClosed := by
  refine Returns.loop (fun i hi lines h => ?_) h
  have hle := (List.mem_range'_1.mp (List.mem_reverse.mp hi))
  exact move_line_returns h (by omega) (by omega)

theorem close_line_returns {lines : Lines} (h : AllClosed lines) {line_count : ℕ}
    (hcount : line_count ≤ MAX_LINES) (cur_line : ℕ) :
    Returns (close_line lines line_count cur_line) True AllClosed := by
  refine Returns.loop (fun i hi lines h => ?_) h
  have hle := List.mem_range'_1.mp hi
  exact move_line_returns h (by omega) (by omega)

theorem insert_newline_smart_returns {e : Editor} (h : Inv e) :
    Returns (insert_newline_smart e) True fun e' => Inv e' ∧ EditStep e e' := by
  have hmax := max_line_len_eq
  have hcol := h.text.col_lt
  by_cases hcount : MAX_LINES - 1 ≤ e.line_count
  · rw [insert_newline_smart, if_pos hcount]
    exact unchanged_returns h trivial
  rw [insert_newline_smart, if_neg hcount]
  have hline := h.text.line_lt_max
  have hline_lt := h.text.line_lt
  refine edit_returns h fun e₁ hs => ?_
  rw [hs.lines, hs.line_count, hs.cur_line, hs.cur_col, peek_of_lt hline, Option.bind_some]
  have hindent : (indent_of (e.lines ⟨e.cur_line, hline⟩)).length ≤ 56 := List.length_take_le _ _
  generalize indent_of (e.lines ⟨e.cur_line, hline⟩) = indent at hindent
  have hextra : Returns (if 0 < e.cur_col then
        ((e.lines ⟨e.cur_line, hline⟩).val[e.cur_col - 1]?).map fun last_c =>
          if opens_block last_c then 4 else 0
      else some 0) True fun add_extra => add_extra ≤ 4 := by
    split
    · have hlt : e.cur_col - 1 < (e.lines ⟨e.cur_line, hline⟩).val.length := by
        rw [length_val]
        omega
      rw [List.getElem?_eq_getElem hlt]
      refine Returns.pure ?_
      dsimp only
      split <;> omega
    · exact Returns.pure (Nat.zero_le 4)
  refine hextra.seq fun add_extra hextra => ?_
  refine (open_line_returns h.text.closed (by omega) e.cur_line).seq fun lines hlines => ?_
  have hclosed := hlines ⟨e.cur_line, hline⟩
  obtain ⟨line, hput, hline'⟩ := hclosed.put_zero hcol
  rw [peek_of_lt hline, Option.bind_some, hclosed.c_str hcol, Option.bind_some, hput,
    Option.bind_some, poke_of_lt hline, Option.bind_some]
  have hlines' := hlines.update ⟨e.cur_line, hline⟩ hline'
  have hnext : e.cur_line + 1 < MAX_LINES := by omega
  obtain ⟨next, hcpy, hnext', -⟩ := (hlines' ⟨e.cur_line + 1, hnext⟩).strncpy
    ((indent ++ List.replicate add_extra 32 ++
      text_of ((lines ⟨e.cur_line, hline⟩).val.drop e.cur_col)).take (MAX_LINE_LEN - 1))
  rw [peek_of_lt hnext, Option.bind_some, hcpy, Option.bind_some, poke_of_lt hnext,
    Option.bind_some]
  refine Returns.pure ⟨⟨hlines'.update _ hnext', ?_, ?_, ?_⟩, rfl, rfl, rfl⟩
  · show e.line_count + 1 ≤ MAX_LINES
    omega
  · exact Nat.succ_lt_succ hline_lt
  · show indent.length + add_extra < MAX_LINE_LEN
    omega

/-- A byte goes out where the cursor is not more than one byte behind the text. -/
theorem delete_char_returns {e : Editor} (h : Inv e) :
    Returns (delete_char e) (0 < e.cur_col → e.cur_col ≤ (cur_text e).length + 1)
      fun e' => Inv e' ∧ EditStep e e' := by
  have hmax := max_line_len_eq
  have hcol := h.text.col_lt
  have hline := h.text.line_lt_max
  have hline_lt := h.text.line_lt
  have hcount := h.text.count_le
  have hclosed := h.text.closed ⟨e.cur_line, hline⟩
  by_cases hpos : 0 < e.cur_col
  · rw [delete_char, if_pos hpos, cur_text_eq hline]
    refine (edit_returns h fun e₁ hs => ?_).congr ⟨fun hle _ => hle, fun hle => hle hpos⟩
    rw [hs.lines, hs.cur_line, hs.cur_col, peek_of_lt hline, Option.bind_some, hclosed.strlen,
      Option.bind_some]
    have hlen := hclosed.text_length_lt
    have hmove := hclosed.move_tail_returns (show MAX_LINE_LEN < 2 ^ 63 by omega) hcol.le
      (fun _ => show e.cur_col - 1 + _ < MAX_LINE_LEN by omega)
    refine hmove.then fun line hle hline' => ?_
    rw [poke_of_lt hline, Option.bind_some]
    refine Returns.pure ⟨⟨h.text.closed.update _ hline', ?_, ?_, ?_⟩, rfl, rfl, rfl⟩
    · rw [hs.line_count]
      exact hcount
    · rw [hs.line_count]
      exact hline_lt
    · exact (Nat.sub_le _ _).trans_lt hcol
  rw [delete_char, if_neg hpos]
  suffices hjoin : Returns _ True fun e' => Inv e' ∧ EditStep e e' from
    hjoin.congr (iff_of_true trivial fun hp => absurd hp hpos)
  by_cases hfirst : 0 < e.cur_line
  · rw [if_pos hfirst]
    refine edit_returns h fun e₁ hs => ?_
    have hprev_lt : e.cur_line - 1 < MAX_LINES := by omega
    have hprev := h.text.closed ⟨e.cur_line - 1, hprev_lt⟩
    rw [hs.lines, hs.cur_line, hs.line_count, peek_of_lt hprev_lt, Option.bind_some,
      hprev.strlen, Option.bind_some, peek_of_lt hline, Option.bind_some, hclosed.c_str_zero,
      Option.bind_some]
    split
    · next hfits =>
        have hcat := (hprev.strcat_returns (zero_notMem_text _)).congr
          (iff_of_true (by omega : (text (e.lines ⟨e.cur_line - 1, hprev_lt⟩)).length +
            (text (e.lines ⟨e.cur_line, hline⟩)).length < MAX_LINE_LEN) trivial)
        refine hcat.seq fun prev hprev' => ?_
        rw [poke_of_lt hprev_lt, Option.bind_some]
        refine (close_line_returns (h.text.closed.update _ hprev'.1) hcount _).seq
          fun lines hlines => ?_
        refine Returns.pure ⟨⟨hlines, ?_, ?_, ?_⟩, rfl, rfl, rfl⟩
        · exact (Nat.sub_le _ _).trans hcount
        · show e.cur_line - 1 < e.line_count - 1
          omega
        · exact hprev.text_length_lt
    · refine Returns.pure ⟨?_, rfl, rfl, rfl⟩
      rw [hs.lines, hs.line_count, hs.cur_line, hs.cur_col]
      exact h.text
  · rw [if_neg hfirst]
    exact unchanged_returns h trivial

theorem duplicate_current_line_returns {e : Editor} (h : Inv e) :
    Returns (duplicate_current_line e) True fun e' => Inv e' ∧ EditStep e e' := by
  have hline := h.text.line_lt
  by_cases hcount : MAX_LINES - 1 ≤ e.line_count
  · rw [duplicate_current_line, if_pos hcount]
    exact unchanged_returns h trivial
  rw [duplicate_current_line, if_neg hcount]
  refine edit_returns h fun e₁ hs => ?_
  rw [hs.lines, hs.line_count, hs.cur_line]
  refine (open_line_returns h.text.closed (by omega) _).seq fun lines hlines => ?_
  refine (move_line_returns hlines (by omega) (by omega)).seq fun lines hlines => ?_
  refine Returns.pure ⟨⟨hlines, ?_, ?_, ?_⟩, rfl, rfl, rfl⟩
  · show e.line_count + 1 ≤ MAX_LINES
    omega
  · exact Nat.succ_lt_succ hline
  · rw [hs.cur_col]
    exact h.text.col_lt

theorem delete_current_line_returns {e : Editor} (h : Inv e) :
    Returns (delete_current_line e) True fun e' => Inv e' ∧ EditStep e e' := by
  have hmax := max_line_len_eq
  have hline := h.text.line_lt
  have hcount := h.text.count_le
  refine edit_returns h fun e₁ hs => ?_
  have htext : TextOk e₁.lines e₁.line_count e₁.cur_line e₁.cur_col := by
    rw [hs.lines, hs.line_count, hs.cur_line, hs.cur_col]
    exact h.text
  have hremove : Returns (remove_line e₁) True (Edited e₁) := by
    have hmax := max_lines_eq
    have hline := htext.line_lt
    have hcount := htext.count_le
    by_cases hone : e₁.line_count = 1
    · have hzero : 0 < MAX_LINES := by omega
      obtain ⟨line, hput, hline'⟩ := (htext.closed ⟨0, hzero⟩).put_zero
        (show 0 < MAX_LINE_LEN by omega)
      rw [remove_line, if_pos hone, peek_of_lt hzero, Option.bind_some, hput, Option.bind_some,
        poke_of_lt hzero, Option.bind_some]
      refine Returns.pure ⟨⟨htext.closed.update _ hline', hcount, hline, ?_⟩, rfl, rfl, rfl⟩
      show 0 < MAX_LINE_LEN
      omega
    · rw [remove_line, if_neg hone]
      refine (close_line_returns htext.closed hcount _).seq fun lines hlines => ?_
      refine Returns.pure ⟨⟨hlines, (Nat.sub_le _ _).trans hcount, ?_, htext.col_lt⟩,
        rfl, rfl, rfl⟩
      show (if e₁.line_count - 1 ≤ e₁.cur_line then e₁.line_count - 1 - 1 else e₁.cur_line) <
        e₁.line_count - 1
      split <;> omega
  refine hremove.seq fun e₂ he => ?_
  have hlt := he.text.line_lt_max
  have hclosed := he.text.closed ⟨e₂.cur_line, hlt⟩
  rw [peek_of_lt hlt, Option.bind_some, hclosed.strlen, Option.bind_some]
  refine Returns.pure ⟨⟨he.text.closed, he.text.count_le, he.text.line_lt, ?_⟩, he.history,
    he.head, he.count⟩
  have hcol := he.text.col_lt
  dsimp only
  split <;> omega

end SysInC.Tedit
