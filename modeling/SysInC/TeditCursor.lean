/-
The keys of the main loop, and the cursor: after every key it is in a line of the file and not
behind its text.

All operations but one see to that. A replacement leaves the column as it is, in a line that may
have become shorter.
-/
import SysInC.TeditHistory
import Mathlib.Data.List.TakeWhile

set_option autoImplicit false

namespace SysInC.Tedit

open SysInC.PartialRun SysInC.CString SysInC.RingStack

/-! ## Keys -/

/-- What a turn of the main loop is given from outside. -/
structure Key where
  /-- What `read_editor_key` reads: a byte, or Escape and what comes with it. -/
  read_buffer : List UInt8
  /-- What is typed into the prompt that the key opens. -/
  typed : List UInt8
  /-- The file can be opened for writing. -/
  opens : Bool
  /-- What a key that leaves the text alone puts into the status line. -/
  status : String

inductive Action where
  | ops (ops : List Op)
  | save_file
  | trigger_live_web_server
  | other

/-- The bytes of an arrow key. -/
def arrow (c : UInt8) : Action :=
  if c = 65 then .ops [.move_up]
  else if c = 66 then .ops [.move_down]
  else if c = 67 then .ops [.move_right]
  else if c = 68 then .ops [.move_left]
  else .other

/-- The tests of the main loop, in their order. Help, the statistics, the shell and the themes are
`other`, and so is an Escape alone. -/
def decode (k : Key) : Action :=
  let byte := fun i => k.read_buffer.getD i 0
  let bytes_read := k.read_buffer.length
  let c := byte 0
  if c = 27 ∧ 2 ≤ bytes_read ∧ byte 1 = 79 ∧ byte 2 = 80 then .other
  else if c = 27 ∧ 2 ≤ bytes_read ∧ byte 1 = 91 ∧ byte 2 = 49 ∧ byte 3 = 53 then
    .trigger_live_web_server
  else if c = 27 ∧ bytes_read = 1 then .other
  else if c = 24 ∨ c = 19 then .save_file
  else if c = 23 then .trigger_live_web_server
  else if c = 15 ∨ c = 16 ∨ c = 5 then .other
  else if c = 26 then .ops [.perform_undo]
  else if c = 18 then .ops [.prompt_replace k.typed]
  else if c = 6 then .ops [.prompt_search k.typed]
  else if c = 7 then .ops [.prompt_goto_line k.typed]
  else if c = 4 then .ops [.duplicate_current_line]
  else if c = 11 then .ops [.delete_current_line]
  else if c = 20 then .other
  else if c = 9 then .ops (List.replicate 4 (.insert_char 32))
  else if c = 13 ∨ c = 10 then .ops [.insert_newline_smart]
  else if c = 127 ∨ c = 8 then .ops [.delete_char]
  else if c = 27 ∧ 3 ≤ bytes_read ∧ byte 1 = 91 then arrow (byte 2)
  else if isprint c = true ∨ 128 ≤ c then .ops [.insert_char c]
  else .other

/-- One turn of the main loop. -/
def press (e : Editor) (k : Key) : Option Editor :=
  match decode k with
  | .ops ops => ops.foldlM step e
  | .save_file => (save_file k.opens e).map Prod.fst
  | .trigger_live_web_server =>
      (save_file k.opens e).map fun r => { r.1 with notify_status := k.status }
  | .other => some { e with notify_status := k.status }

/-! ## The cursor -/

/-- The cursor is in a line and not behind its text, and every line ends inside of its bytes. -/
structure CursorOk (e : Editor) : Prop where
  line_lt : e.cur_line < e.line_count
  col_le : e.cur_col ≤ (cur_text e).length
  count_le : e.line_count ≤ MAX_LINES
  terminated : ∀ i, 0 ∈ (e.lines i).val

/-- The same of a snapshot. -/
def Snapshot.CursorOk (s : Snapshot) : Prop :=
  s.cur_col ≤ (s.texts.getD s.cur_line []).length

theorem view_cursor {e : Editor} (h : e.cur_line < e.line_count) :
    e.view.CursorOk ↔ e.cur_col ≤ (cur_text e).length := by
  have htext : e.view.texts.getD e.view.cur_line [] = cur_text e := by
    rw [List.getD_eq_getElem?_getD, Editor.view, texts, List.getElem?_map,
      List.getElem?_range h]
    rfl
  rw [Snapshot.CursorOk, htext]
  rfl

/-- What holds between two keys. -/
structure Settled (e : Editor) : Prop where
  inv : Inv e
  col_le : e.cur_col ≤ (cur_text e).length
  snapshots : ∀ s ∈ e.snapshots, s.CursorOk

theorem Settled.cursorOk {e : Editor} (h : Settled e) : CursorOk e :=
  ⟨h.inv.text.line_lt, h.col_le, h.inv.text.count_le, fun i => (h.inv.text.closed i).zero_mem⟩

/-- The snapshots stay in order, whatever an operation does to its own text. -/
theorem HistoryStep.snapshots {e e' : Editor} {op : Op} (h : Settled e)
    (hstep : HistoryStep e op e') : ∀ s ∈ e'.snapshots, s.CursorOk := by
  have hview := (view_cursor h.inv.text.line_lt).mpr h.col_le
  have hedit (hstep : EditStep e e') : ∀ s ∈ e'.snapshots, s.CursorOk := by
    rcases hstep with ⟨-, hsame⟩ | hpush
    · rw [hsame]
      exact h.snapshots
    · rw [hpush]
      intro s hs
      rcases List.mem_cons.mp (List.mem_of_mem_take hs) with rfl | hs
      · exact hview
      · exact h.snapshots s hs
  have hmove (hstep : MoveStep e e') : ∀ s ∈ e'.snapshots, s.CursorOk := by
    rw [hstep.2.2]
    exact h.snapshots
  cases op with
  | perform_undo =>
      have hsnapshots := h.snapshots
      have hundo : UndoStep e e' := hstep
      unfold UndoStep at hundo
      split at hundo
      · rw [hundo.2]
        exact fun s hs => absurd hs List.not_mem_nil
      · next heq =>
          rw [heq] at hsnapshots
          rw [hundo.2]
          exact fun s hs => hsnapshots s (List.mem_cons_of_mem _ hs)
  | move_up => exact hmove hstep
  | move_down => exact hmove hstep
  | move_right => exact hmove hstep
  | move_left => exact hmove hstep
  | prompt_search keys => exact hmove hstep
  | prompt_goto_line keys => exact hmove hstep
  | _ => exact hedit hstep

/-! ## The columns that the operations leave -/

theorem saved {e e₁ : Editor} (h : Inv e) (he : save_undo_state e = some e₁) : Saved e e₁ := by
  obtain ⟨e₂, he₂, hs⟩ := save_undo_state_spec h
  rw [he] at he₂
  exact Option.some.inj he₂ ▸ hs

theorem col_of_line {e : Editor} {i : ℕ} (hi : i < MAX_LINES) (hcur : e.cur_line = i)
    (hcol : e.cur_col ≤ (text (e.lines ⟨i, hi⟩)).length) : e.cur_col ≤ (cur_text e).length := by
  subst hcur
  rwa [cur_text_eq hi]

theorem col_of_update {e : Editor} {lines : Lines} {i : ℕ} (hi : i < MAX_LINES)
    {line : Buf MAX_LINE_LEN} (hlines : e.lines = Function.update lines ⟨i, hi⟩ line)
    (hcur : e.cur_line = i) (hcol : e.cur_col ≤ (text line).length) :
    e.cur_col ≤ (cur_text e).length := by
  refine col_of_line hi hcur ?_
  rwa [hlines, Function.update_self]

theorem insert_char_col {c : UInt8} (hc : c ≠ 0) {e e' : Editor} (h : Inv e)
    (hcol : e.cur_col ≤ (cur_text e).length) (he : insert_char c e = some e') :
    e'.cur_col ≤ (cur_text e').length := by
  have hline := h.text.line_lt_max
  have hclosed := h.text.closed ⟨e.cur_line, hline⟩
  have hmax := max_line_len_eq
  rw [cur_text_eq hline] at hcol
  rw [insert_char, peek_of_lt hline, Option.bind_some, hclosed.strlen, Option.bind_some] at he
  split at he
  · next hlen =>
      obtain ⟨e₁, he₁, he⟩ := Option.bind_eq_some_iff.mp he
      have hs := saved h he₁
      rw [hs.lines, hs.cur_line, hs.cur_col, size_sub_of_le (by omega) (by omega)] at he
      obtain ⟨moved, hmoved, he⟩ := Option.bind_eq_some_iff.mp he
      obtain ⟨line, hput, he⟩ := Option.bind_eq_some_iff.mp he
      rw [poke_of_lt hline, Option.bind_some] at he
      obtain rfl := Option.some.inj he
      refine col_of_update hline rfl rfl ?_
      rw [text_insert hclosed.zero_mem hc hcol hmoved hput, List.length_append,
        List.length_cons, List.length_take, List.length_drop]
      dsimp only
      omega
  · rw [← Option.some.inj he, cur_text_eq hline]
    exact hcol

/-- The new line begins with the blanks that the cursor is put behind. -/
theorem insert_newline_smart_col {e e' : Editor} (h : Inv e)
    (hcol : e.cur_col ≤ (cur_text e).length) (he : insert_newline_smart e = some e') :
    e'.cur_col ≤ (cur_text e').length := by
  have hmax := max_line_len_eq
  have hline := h.text.line_lt_max
  have hcount_le := h.text.count_le
  by_cases hcount : MAX_LINES - 1 ≤ e.line_count
  · rw [insert_newline_smart, if_pos hcount] at he
    exact Option.some.inj he ▸ hcol
  rw [insert_newline_smart, if_neg hcount] at he
  obtain ⟨e₁, he₁, he⟩ := Option.bind_eq_some_iff.mp he
  have hs := saved h he₁
  rw [hs.lines, hs.line_count, hs.cur_line, hs.cur_col, peek_of_lt hline, Option.bind_some] at he
  dsimp only at he
  have hindent : (indent_of (e.lines ⟨e.cur_line, hline⟩)).length ≤ 56 := List.length_take_le _ _
  have hblank : 0 ∉ indent_of (e.lines ⟨e.cur_line, hline⟩) := by
    intro hmem
    have := List.mem_takeWhile_imp (List.mem_of_mem_take hmem)
    exact absurd this (by decide)
  generalize indent_of (e.lines ⟨e.cur_line, hline⟩) = indent at he hindent hblank
  obtain ⟨add_extra, hextra, he⟩ := Option.bind_eq_some_iff.mp he
  have hextra : add_extra ≤ 4 := by
    split at hextra
    · obtain ⟨last_c, -, rfl⟩ := Option.map_eq_some_iff.mp hextra
      split <;> omega
    · rw [← Option.some.inj hextra]
      exact Nat.zero_le 4
  obtain ⟨lines, hopen, he⟩ := Option.bind_eq_some_iff.mp he
  have hlines := ((open_line_returns h.text.closed (by omega) e.cur_line).2 lines hopen).2
  rw [peek_of_lt hline, Option.bind_some] at he
  obtain ⟨rest, hrest, he⟩ := Option.bind_eq_some_iff.mp he
  have hrest : 0 ∉ rest := by
    rw [c_str_some hrest]
    exact zero_notMem_text_of _
  obtain ⟨line, hput, he⟩ := Option.bind_eq_some_iff.mp he
  have hcol_lt : e.cur_col < MAX_LINE_LEN := h.text.col_lt
  obtain ⟨line', hput', hline'⟩ := (hlines ⟨e.cur_line, hline⟩).put_zero hcol_lt
  obtain rfl := Option.some.inj (hput.symm.trans hput')
  have hnext : e.cur_line + 1 < MAX_LINES := by
    have := h.text.line_lt
    omega
  rw [poke_of_lt hline, Option.bind_some, peek_of_lt hnext, Option.bind_some] at he
  obtain ⟨next, hcpy, -, htext⟩ := ((hlines.update ⟨e.cur_line, hline⟩ hline')
    ⟨e.cur_line + 1, hnext⟩).strncpy
    ((indent ++ List.replicate add_extra 32 ++ rest).take (MAX_LINE_LEN - 1))
  rw [hcpy, Option.bind_some, poke_of_lt hnext, Option.bind_some] at he
  obtain rfl := Option.some.inj he
  refine col_of_update hnext rfl rfl ?_
  rw [htext, List.length_take, List.length_take, List.length_append, List.length_append,
    List.length_replicate]
  · dsimp only
    omega
  · intro hmem
    rcases List.mem_append.mp (List.mem_of_mem_take hmem) with hmem | hmem
    · rcases List.mem_append.mp hmem with hmem | hmem
      · exact hblank hmem
      · exact absurd (List.eq_of_mem_replicate hmem) (by decide)
    · exact hrest hmem

/-! The line operations leave the other lines alone. -/

theorem move_line_text {lines lines' : Lines} (h : AllClosed lines) {dst src : ℕ}
    (hdst : dst < MAX_LINES) (hsrc : src < MAX_LINES)
    (hm : move_line lines dst src = some lines') :
    (∀ j : Fin MAX_LINES, j.val ≠ dst → lines' j = lines j) ∧
      text (lines' ⟨dst, hdst⟩) = text (lines ⟨src, hsrc⟩) := by
  rw [move_line, peek_of_lt hsrc, Option.bind_some, (h ⟨src, hsrc⟩).c_str_zero, Option.bind_some,
    peek_of_lt hdst, Option.bind_some] at hm
  obtain ⟨line, hcpy, hm⟩ := Option.bind_eq_some_iff.mp hm
  rw [poke_of_lt hdst] at hm
  obtain rfl := Option.some.inj hm
  refine ⟨fun j hj => Function.update_of_ne (fun heq => hj (congrArg Fin.val heq)) _ _, ?_⟩
  rw [Function.update_self]
  exact text_strcpy (zero_notMem_text _) hcpy

/-- Lines in front of those that are moved stay as they are. -/
theorem move_lines_frame {lines lines' : Lines} (h : AllClosed lines) {is : List ℕ}
    (src : ℕ → ℕ) (first : ℕ) (his : ∀ i ∈ is, first ≤ i ∧ i < MAX_LINES ∧ src i < MAX_LINES)
    (hm : is.foldlM (fun lines i => move_line lines i (src i)) lines = some lines') :
    AllClosed lines' ∧ ∀ j : Fin MAX_LINES, j.val < first → lines' j = lines j := by
  refine foldlM_keeps (I := fun lines' : Lines =>
    AllClosed lines' ∧ ∀ j : Fin MAX_LINES, j.val < first → lines' j = lines j)
    (fun i hi s s' hs' hinv => ?_) ⟨h, fun _ _ => rfl⟩ hm
  obtain ⟨hfirst, hdst, hsrc⟩ := his i hi
  refine ⟨((move_line_returns hinv.1 hdst hsrc).2 s' hs').2, fun j hj => ?_⟩
  rw [(move_line_text hinv.1 hdst hsrc hs').1 j (by omega)]
  exact hinv.2 j hj

theorem delete_char_col {e e' : Editor} (h : Inv e) (hcol : e.cur_col ≤ (cur_text e).length)
    (he : delete_char e = some e') : e'.cur_col ≤ (cur_text e').length := by
  have hmax := max_line_len_eq
  have hline := h.text.line_lt_max
  have hcount := h.text.count_le
  have hclosed := h.text.closed ⟨e.cur_line, hline⟩
  have hlen := hclosed.text_length_lt
  by_cases hpos : 0 < e.cur_col
  · rw [delete_char, if_pos hpos] at he
    obtain ⟨e₁, he₁, he⟩ := Option.bind_eq_some_iff.mp he
    have hs := saved h he₁
    rw [cur_text_eq hline] at hcol
    rw [hs.lines, hs.cur_line, hs.cur_col, peek_of_lt hline, Option.bind_some, hclosed.strlen,
      Option.bind_some, size_sub_of_le (by omega) (by omega)] at he
    obtain ⟨line, hmoved, he⟩ := Option.bind_eq_some_iff.mp he
    rw [poke_of_lt hline, Option.bind_some] at he
    obtain rfl := Option.some.inj he
    refine col_of_update hline rfl rfl ?_
    rw [text_delete hclosed.zero_mem (Nat.sub_le _ 1) hcol hmoved, List.length_append,
      List.length_take, List.length_drop]
    dsimp only
    omega
  rw [delete_char, if_neg hpos] at he
  by_cases hfirst : 0 < e.cur_line
  · rw [if_pos hfirst] at he
    obtain ⟨e₁, he₁, he⟩ := Option.bind_eq_some_iff.mp he
    have hs := saved h he₁
    have hprev_lt : e.cur_line - 1 < MAX_LINES := by omega
    have hprev := h.text.closed ⟨e.cur_line - 1, hprev_lt⟩
    rw [hs.lines, hs.cur_line, hs.line_count, peek_of_lt hprev_lt, Option.bind_some,
      hprev.strlen, Option.bind_some, peek_of_lt hline, Option.bind_some, hclosed.c_str_zero,
      Option.bind_some] at he
    split at he
    · obtain ⟨line, hcat, he⟩ := Option.bind_eq_some_iff.mp he
      have hjoined := ((hprev.strcat_returns (zero_notMem_text _)).2 line hcat).2
      rw [poke_of_lt hprev_lt, Option.bind_some] at he
      obtain ⟨lines, hclose, he⟩ := Option.bind_eq_some_iff.mp he
      obtain rfl := Option.some.inj he
      -- the lines behind close up, and the joined one stays
      have hframe := (move_lines_frame (h.text.closed.update ⟨e.cur_line - 1, hprev_lt⟩ hjoined.1)
        (· + 1) e.cur_line (fun i hi => ?_) hclose).2
        ⟨e.cur_line - 1, hprev_lt⟩ (Nat.sub_one_lt_of_lt hfirst)
      · refine col_of_line hprev_lt rfl ?_
        dsimp only
        rw [hframe, Function.update_self, hjoined.2, List.length_append]
        exact Nat.le_add_right _ _
      · have := List.mem_range'_1.mp hi
        omega
    · obtain rfl := Option.some.inj he
      rw [cur_text, hs.lines, hs.cur_line, hs.cur_col]
      exact hcol
  · rw [if_neg hfirst] at he
    exact Option.some.inj he ▸ hcol

theorem duplicate_current_line_col {e e' : Editor} (h : Inv e)
    (hcol : e.cur_col ≤ (cur_text e).length) (he : duplicate_current_line e = some e') :
    e'.cur_col ≤ (cur_text e').length := by
  have hline := h.text.line_lt_max
  have hline_lt := h.text.line_lt
  by_cases hcount : MAX_LINES - 1 ≤ e.line_count
  · rw [duplicate_current_line, if_pos hcount] at he
    exact Option.some.inj he ▸ hcol
  rw [duplicate_current_line, if_neg hcount] at he
  obtain ⟨e₁, he₁, he⟩ := Option.bind_eq_some_iff.mp he
  have hs := saved h he₁
  rw [hs.lines, hs.line_count, hs.cur_line] at he
  obtain ⟨opened, hopen, he⟩ := Option.bind_eq_some_iff.mp he
  obtain ⟨lines, hmove, he⟩ := Option.bind_eq_some_iff.mp he
  obtain rfl := Option.some.inj he
  have hframe := move_lines_frame h.text.closed (· - 1) (e.cur_line + 1) (fun i hi => ?_) hopen
  · have hnext : e.cur_line + 1 < MAX_LINES := by omega
    refine col_of_line hnext rfl ?_
    dsimp only
    rw [(move_line_text hframe.1 hnext hline hmove).2, hframe.2 ⟨e.cur_line, hline⟩
      (Nat.lt_succ_self _), ← cur_text_eq hline, hs.cur_col]
    exact hcol
  · have := List.mem_range'_1.mp (List.mem_reverse.mp hi)
    omega

/-- The length that the cursor is held against. -/
theorem strlen_cur_text {e : Editor} {i l : ℕ} (hcur : e.cur_line = i) {line : Buf MAX_LINE_LEN}
    (hpeek : peek e.lines i = some line) (hlen : strlen line = some l) :
    (cur_text e).length = l := by
  subst hcur
  have hlt := ((Returns.peek e.lines e.cur_line).2 line hpeek).1
  rw [peek_of_lt hlt] at hpeek
  rw [strlen_some hlen, ← Option.some.inj hpeek, cur_text_eq hlt]

theorem col_of_strlen {e : Editor} {lines : Lines} {i l : ℕ} {line : Buf MAX_LINE_LEN}
    (hpeek : peek lines i = some line) (hlen : strlen line = some l) (hlines : e.lines = lines)
    (hcur : e.cur_line = i) (hcol : e.cur_col ≤ l) : e.cur_col ≤ (cur_text e).length := by
  subst hlines
  rwa [strlen_cur_text hcur hpeek hlen]

theorem delete_current_line_col {e e' : Editor} (he : delete_current_line e = some e') :
    e'.cur_col ≤ (cur_text e').length := by
  obtain ⟨e₁, -, he⟩ := Option.bind_eq_some_iff.mp he
  obtain ⟨e₂, -, he⟩ := Option.bind_eq_some_iff.mp he
  obtain ⟨line, hpeek, he⟩ := Option.bind_eq_some_iff.mp he
  obtain ⟨l, hlen, he⟩ := Option.bind_eq_some_iff.mp he
  obtain rfl := Option.some.inj he
  refine col_of_strlen hpeek hlen rfl rfl ?_
  dsimp only
  split <;> omega

theorem move_to_line_col {e e' : Editor} {cur_line : ℕ}
    (he : move_to_line cur_line e = some e') : e'.cur_col ≤ (cur_text e').length := by
  obtain ⟨line, hpeek, he⟩ := Option.bind_eq_some_iff.mp he
  obtain ⟨l, hlen, he⟩ := Option.bind_eq_some_iff.mp he
  obtain rfl := Option.some.inj he
  refine col_of_strlen hpeek hlen rfl rfl ?_
  dsimp only
  split <;> omega

theorem move_up_col {e e' : Editor} (hcol : e.cur_col ≤ (cur_text e).length)
    (he : move_up e = some e') : e'.cur_col ≤ (cur_text e').length := by
  unfold move_up at he
  split at he
  · exact move_to_line_col he
  · exact Option.some.inj he ▸ hcol

theorem move_down_col {e e' : Editor} (hcol : e.cur_col ≤ (cur_text e).length)
    (he : move_down e = some e') : e'.cur_col ≤ (cur_text e').length := by
  unfold move_down at he
  split at he
  · exact move_to_line_col he
  · exact Option.some.inj he ▸ hcol

theorem move_right_col {e e' : Editor} (hcol : e.cur_col ≤ (cur_text e).length)
    (he : move_right e = some e') : e'.cur_col ≤ (cur_text e').length := by
  obtain ⟨line, hpeek, he⟩ := Option.bind_eq_some_iff.mp he
  obtain ⟨l, hlen, he⟩ := Option.bind_eq_some_iff.mp he
  have htext := strlen_cur_text rfl hpeek hlen
  split at he
  · next hlt =>
      obtain rfl := Option.some.inj he
      exact Nat.succ_le_of_lt (htext ▸ hlt)
  split at he
  · obtain rfl := Option.some.inj he
    exact Nat.zero_le _
  · exact Option.some.inj he ▸ hcol

theorem move_left_col {e e' : Editor} (hcol : e.cur_col ≤ (cur_text e).length)
    (he : move_left e = some e') : e'.cur_col ≤ (cur_text e').length := by
  unfold move_left at he
  split at he
  · obtain rfl := Option.some.inj he
    exact (Nat.sub_le _ _).trans hcol
  split at he
  · obtain ⟨line, hpeek, he⟩ := Option.bind_eq_some_iff.mp he
    obtain ⟨l, hlen, he⟩ := Option.bind_eq_some_iff.mp he
    obtain rfl := Option.some.inj he
    exact col_of_strlen hpeek hlen rfl rfl le_rfl
  · exact Option.some.inj he ▸ hcol

/-- What is found begins inside of its line. -/
theorem find_match_col {query : List UInt8} {e e' : Editor} {steps : List ℕ}
    (h : find_match query e steps = some (some (e'.cur_line, e'.cur_col)))
    (hlines : e'.lines = e.lines) : e'.cur_col ≤ (cur_text e').length := by
  induction steps with
  | nil => exact nomatch h
  | cons step steps ih =>
      rw [find_match] at h
      obtain ⟨line, hpeek, h⟩ := Option.bind_eq_some_iff.mp h
      obtain ⟨s, hs, h⟩ := Option.bind_eq_some_iff.mp h
      generalize (if step = 0 then e.cur_col + 1 else 0) = c_start at h
      split at h
      · next hstart =>
          split at h
          · next k hk =>
              obtain ⟨hline, hcol⟩ := Prod.mk.inj (Option.some.inj (Option.some.inj h))
              have hlen : strlen line = some s.length := by
                rw [strlen, hs, Option.map_some]
              have hle := strstr_le hk
              rw [List.length_map, List.length_drop] at hle
              refine col_of_strlen hpeek hlen hlines hline.symm ?_
              omega
          · exact ih h
      · exact ih h

theorem prompt_search_col {keys : List UInt8} {e e' : Editor}
    (hcol : e.cur_col ≤ (cur_text e).length) (he : prompt_search keys e = some e') :
    e'.cur_col ≤ (cur_text e').length := by
  unfold prompt_search at he
  split at he
  · exact Option.some.inj he ▸ hcol
  split at he
  · exact Option.some.inj he ▸ hcol
  · obtain ⟨found, hfound, rfl⟩ := Option.map_eq_some_iff.mp he
    cases found with
    | none => exact hcol
    | some lc => exact find_match_col hfound rfl

theorem prompt_goto_line_col (keys : List UInt8) {e : Editor}
    (hcol : e.cur_col ≤ (cur_text e).length) :
    (prompt_goto_line keys e).cur_col ≤ (cur_text (prompt_goto_line keys e)).length := by
  unfold prompt_goto_line
  split
  · exact hcol
  split
  · exact hcol
  · exact Nat.zero_le _

/-! ## Replacements -/

/-- How many occurrences in a text are replaced. -/
def occurrences (find_str : List UInt8) : ℕ → List UInt8 → ℕ
  | 0, _ => 0
  | fuel + 1, p =>
      match strstr find_str p with
      | none => 0
      | some k => occurrences find_str fuel (p.drop (k + find_str.length)) + 1

theorem strstr_add_le {find s : List UInt8} {k : ℕ} (h : strstr find s = some k) :
    k + find.length ≤ s.length := by
  induction s generalizing k with
  | nil =>
      rw [strstr] at h
      split at h
      · next hnil =>
          rw [← Option.some.inj h, hnil]
          exact le_rfl
      · exact absurd h.symm (Option.some_ne_none k)
  | cons c s ih =>
      rw [strstr] at h
      split at h
      · next hfront =>
          rw [← Option.some.inj h, Nat.zero_add]
          exact (List.isPrefixOf_iff_prefix.mp hfront).length_le
      · obtain ⟨j, hj, rfl⟩ := Option.map_eq_some_iff.mp h
        have := ih hj
        rw [List.length_cons]
        omega

/-- What a text's length becomes. -/
theorem replaced_length (find_str rep_str : List UInt8) (fuel : ℕ) (p : List UInt8) :
    (replaced find_str rep_str fuel p).length + occurrences find_str fuel p * find_str.length =
      p.length + occurrences find_str fuel p * rep_str.length := by
  induction fuel generalizing p with
  | zero => rw [replaced, occurrences, Nat.zero_mul, Nat.zero_mul]
  | succ fuel ih =>
      rw [replaced, occurrences]
      cases hfound : strstr find_str p with
      | none =>
          dsimp only
          rw [Nat.zero_mul, Nat.zero_mul]
      | some k =>
          have hrest := ih (p.drop (k + find_str.length))
          have hle := strstr_add_le hfound
          dsimp only
          rw [List.length_append, List.length_append, List.length_take,
            Nat.min_eq_left (by omega), Nat.succ_mul, Nat.succ_mul]
          rw [List.length_drop] at hrest
          omega

theorem replace_line_text {find_str rep_str : List UInt8} (hrep : 0 ∉ rep_str) {l : ℕ}
    (hl : l < MAX_LINES) {r r' : Lines × ℕ} (hr : AllClosed r.1)
    (h : replace_line find_str rep_str r l = some r') :
    AllClosed r'.1 ∧ (∀ j : Fin MAX_LINES, j.val ≠ l → r'.1 j = r.1 j) ∧
      text (r'.1 ⟨l, hl⟩) = (replaced find_str rep_str (text (r.1 ⟨l, hl⟩)).length
        (text (r.1 ⟨l, hl⟩))).take (MAX_LINE_LEN - 1) := by
  have hclosed := hr ⟨l, hl⟩
  rw [replace_line, peek_of_lt hl, Option.bind_some, hclosed.c_str_zero, Option.bind_some] at h
  split at h
  · next hnone =>
      obtain rfl := Option.some.inj h
      refine ⟨hr, fun _ _ => rfl, ?_⟩
      rw [replaced_of_none (Option.isNone_iff_eq_none.mp hnone), List.take_of_length_le]
      exact Nat.le_sub_one_of_lt hclosed.text_length_lt
  · obtain ⟨t, ht, h⟩ := Option.bind_eq_some_iff.mp h
    have hloop := (replace_loop_returns find_str hrep _ (zero_notMem_text _)
      (closed_zeros 2047) r.2).2 t ht
    obtain ⟨line, hcpy, hline, htext⟩ := hclosed.strncpy (text t.1)
    rw [hcpy, Option.bind_some, poke_of_lt hl, Option.bind_some] at h
    obtain rfl := Option.some.inj h
    refine ⟨hr.update _ hline, fun j hj => ?_, ?_⟩
    · exact Function.update_of_ne (fun heq => hj (congrArg Fin.val heq)) _ _
    · dsimp only
      rw [Function.update_self, htext (zero_notMem_text _), hloop.2.2]
      rfl

/-- The loop of `replace_all` over the lines, as one line sees it. -/
theorem replace_lines_text {find_str rep_str : List UInt8} (hrep : 0 ∉ rep_str) {start : Lines}
    (hstart : AllClosed start) {line_count : ℕ} (hcount : line_count ≤ MAX_LINES)
    (c : Fin MAX_LINES) {r : Lines × ℕ}
    (h : (List.range line_count).foldlM (replace_line find_str rep_str) (start, 0) = some r) :
    text (r.1 c) = if c.val < line_count then
      (replaced find_str rep_str (text (start c)).length (text (start c))).take (MAX_LINE_LEN - 1)
      else text (start c) := by
  refine (range_keeps (I := fun k (r : Lines × ℕ) => AllClosed r.1 ∧
    text (r.1 c) = if c.val < k then
      (replaced find_str rep_str (text (start c)).length (text (start c))).take (MAX_LINE_LEN - 1)
      else text (start c)) (fun k hk r r' hr' hinv => ?_) ⟨hstart, rfl⟩ h).2
  have hlt : k < MAX_LINES := hk.trans_le hcount
  obtain ⟨hclosed, hframe, htext⟩ := replace_line_text hrep hlt hinv.1 hr'
  refine ⟨hclosed, ?_⟩
  by_cases hc : c.val = k
  · obtain rfl : c = ⟨k, hlt⟩ := Fin.ext hc
    have hsame := hinv.2
    rw [if_neg (Nat.lt_irrefl _)] at hsame
    rw [htext, hsame, if_pos (Nat.lt_succ_self _)]
  · rw [hframe c hc, hinv.2]
    have hiff : c.val < k + 1 ↔ c.val < k := by omega
    simp only [hiff]

/-- The line of the cursor with its occurrences replaced, cut at the end of its buffer. -/
theorem replace_all_text {find_str rep_str : List UInt8} (hrep : 0 ∉ rep_str) {e e' : Editor}
    (h : Inv e) (he : replace_all find_str rep_str e = some e') :
    e'.cur_col = e.cur_col ∧ cur_text e' =
      (replaced find_str rep_str (cur_text e).length (cur_text e)).take (MAX_LINE_LEN - 1) := by
  have hline : (Fin.ofNat MAX_LINES e.cur_line).val < e.line_count := by
    rw [Fin.val_ofNat, Nat.mod_eq_of_lt h.text.line_lt_max]
    exact h.text.line_lt
  obtain ⟨e₁, he₁, he⟩ := Option.bind_eq_some_iff.mp he
  have hs := saved h he₁
  rw [hs.lines, hs.line_count] at he
  obtain ⟨r, hr, he⟩ := Option.bind_eq_some_iff.mp he
  have htext := replace_lines_text hrep h.text.closed h.text.count_le
    (Fin.ofNat MAX_LINES e.cur_line) hr
  rw [if_pos hline] at htext
  have hafter : e'.lines = r.1 ∧ e'.cur_line = e₁.cur_line ∧ e'.cur_col = e₁.cur_col := by
    split at he
    · rw [← Option.some.inj he]
      exact ⟨rfl, rfl, rfl⟩
    · rw [← Option.some.inj he]
      exact ⟨rfl, rfl, rfl⟩
  rw [cur_text, hafter.1, hafter.2.1, hafter.2.2, hs.cur_line, hs.cur_col]
  exact ⟨rfl, htext⟩

def line_text (e : Editor) (l : ℕ) : List UInt8 := text (e.lines (Fin.ofNat MAX_LINES l))

/-- How often a string stands in a text, counted without overlaps. -/
def replaced_count (find_str t : List UInt8) : ℕ := occurrences find_str t.length t

/-- What keeps a replacement in order, in the lengths before it: no line outgrows `temp_line`, and
the line of the cursor does not become shorter than its column. -/
structure ReplaceOk (find_str rep_str : List UInt8) (e : Editor) : Prop where
  fits : ∀ l < e.line_count,
    (line_text e l).length + replaced_count find_str (line_text e l) * rep_str.length <
      MAX_LINE_LEN * 2 + replaced_count find_str (line_text e l) * find_str.length
  col : e.cur_col + replaced_count find_str (cur_text e) * find_str.length ≤
    (cur_text e).length + replaced_count find_str (cur_text e) * rep_str.length

theorem replace_all_iff (find_str : List UInt8) {rep_str : List UInt8} (hrep : 0 ∉ rep_str)
    {e : Editor} (h : Inv e) :
    (∃ e', replace_all find_str rep_str e = some e' ∧ e'.cur_col ≤ (cur_text e').length) ↔
      ReplaceOk find_str rep_str e := by
  have hlength (t : List UInt8) : (replaced find_str rep_str t.length t).length +
      replaced_count find_str t * find_str.length =
        t.length + replaced_count find_str t * rep_str.length :=
    replaced_length find_str rep_str t.length t
  have hfit : AllFit find_str rep_str e ↔ ∀ l < e.line_count,
      (line_text e l).length + replaced_count find_str (line_text e l) * rep_str.length <
        MAX_LINE_LEN * 2 + replaced_count find_str (line_text e l) * find_str.length := by
    refine forall_congr' fun l => forall_congr' fun _ => ?_
    have := hlength (line_text e l)
    rw [FitsTemp, ← line_text]
    omega
  have hcur := hlength (cur_text e)
  have hcol_lt := h.text.col_lt
  have hmax := max_line_len_eq
  constructor
  · rintro ⟨e', he', hcol⟩
    obtain ⟨hsame, htext⟩ := replace_all_text hrep h he'
    refine ⟨hfit.mp ((replace_all_returns find_str hrep h).2 e' he').1, ?_⟩
    rw [hsame, htext, List.length_take] at hcol
    omega
  · intro hok
    obtain ⟨e', he'⟩ := (replace_all_returns find_str hrep h).1 (hfit.mpr hok.fits)
    obtain ⟨hsame, htext⟩ := replace_all_text hrep h he'
    have hcol := hok.col
    refine ⟨e', he', ?_⟩
    rw [hsame, htext, List.length_take]
    omega

/-! ## Operations and keys -/

/-- Operations that leave the cursor in order: all but a replacement, of the bytes that are typed. -/
def Quiet (op : Op) : Prop :=
  match op with
  | .insert_char c => c ≠ 0
  | .prompt_replace _ => False
  | _ => True

/-- **A step that is no replacement.** -/
theorem step_quiet {e : Editor} (h : Settled e) {op : Op} (hop : Quiet op) :
    ∃ e', step e op = some e' ∧ Settled e' := by
  have hwithin : InBuffers e op := by
    cases op with
    | insert_char c => exact fun _ => Nat.le_succ_of_le h.col_le
    | delete_char => exact fun _ => Nat.le_succ_of_le h.col_le
    | prompt_replace keys => exact hop.elim
    | _ => trivial
  obtain ⟨e', he'⟩ := (step_returns e op h.inv).1 hwithin
  obtain ⟨-, hinv, hstep⟩ := (step_returns e op h.inv).2 e' he'
  refine ⟨e', he', hinv, ?_, hstep.snapshots h⟩
  -- the status line has no part in it
  obtain ⟨e₀, hclear⟩ : ∃ e₀, ({ e with notify_status := "" } : Editor) = e₀ := ⟨_, rfl⟩
  have hinv₀ : Inv e₀ := hclear ▸ ⟨h.inv.text, h.inv.ring⟩
  have hcol₀ : e₀.cur_col ≤ (cur_text e₀).length := by
    rw [← hclear]
    exact h.col_le
  unfold step at he'
  rw [hclear] at he'
  cases op with
  | insert_char c => exact insert_char_col hop hinv₀ hcol₀ he'
  | insert_newline_smart => exact insert_newline_smart_col hinv₀ hcol₀ he'
  | delete_char => exact delete_char_col hinv₀ hcol₀ he'
  | duplicate_current_line => exact duplicate_current_line_col hinv₀ hcol₀ he'
  | delete_current_line => exact delete_current_line_col he'
  | prompt_replace keys => exact hop.elim
  | perform_undo =>
      have hundo : UndoStep e e' := hstep
      have hsnapshots := h.snapshots
      unfold UndoStep at hundo
      split at hundo
      · rw [← view_cursor hinv.text.line_lt, hundo.1]
        exact (view_cursor h.inv.text.line_lt).mpr h.col_le
      · next heq =>
          rw [heq] at hsnapshots
          rw [← view_cursor hinv.text.line_lt, hundo.1]
          exact hsnapshots _ List.mem_cons_self
  | move_up => exact move_up_col hcol₀ he'
  | move_down => exact move_down_col hcol₀ he'
  | move_right => exact move_right_col hcol₀ he'
  | move_left => exact move_left_col hcol₀ he'
  | prompt_search keys => exact prompt_search_col hcol₀ he'
  | prompt_goto_line keys =>
      rw [← Option.some.inj he']
      exact prompt_goto_line_col keys hcol₀

theorem steps_quiet {ops : List Op} (hops : ∀ op ∈ ops, Quiet op) {e : Editor} (h : Settled e) :
    ∃ e', ops.foldlM step e = some e' ∧ Settled e' := by
  induction ops generalizing e with
  | nil => exact ⟨e, rfl, h⟩
  | cons op ops ih =>
      rw [List.forall_mem_cons] at hops
      obtain ⟨e₁, he₁, h₁⟩ := step_quiet h hops.1
      obtain ⟨e₂, he₂, h₂⟩ := ih hops.2 h₁
      exact ⟨e₂, by rw [List.foldlM_cons, he₁]; exact he₂, h₂⟩

def QuietAction : Action → Prop
  | .ops ops => ∀ op ∈ ops, Quiet op
  | _ => True

theorem quiet_singleton {op : Op} (h : Quiet op) : QuietAction (.ops [op]) := by
  intro op' hop'
  rwa [List.mem_singleton.mp hop']

theorem arrow_quiet (c : UInt8) : QuietAction (arrow c) := by
  unfold arrow
  split
  · exact quiet_singleton trivial
  split
  · exact quiet_singleton trivial
  split
  · exact quiet_singleton trivial
  split
  · exact quiet_singleton trivial
  · trivial

/-- Ctrl-R is the only key whose action may put the cursor behind its line. -/
theorem decode_quiet {k : Key} (h : k.read_buffer.getD 0 0 ≠ 18) : QuietAction (decode k) := by
  have hite {p : Prop} [Decidable p] {a b : Action} (ha : p → QuietAction a)
      (hb : ¬p → QuietAction b) : QuietAction (if p then a else b) := by
    split
    · next hp => exact ha hp
    · next hp => exact hb hp
  unfold decode
  refine hite (fun _ => trivial) fun _ => ?_
  refine hite (fun _ => trivial) fun _ => ?_
  refine hite (fun _ => trivial) fun _ => ?_
  refine hite (fun _ => trivial) fun _ => ?_
  refine hite (fun _ => trivial) fun _ => ?_
  refine hite (fun _ => trivial) fun _ => ?_
  refine hite (fun _ => quiet_singleton trivial) fun _ => ?_
  refine hite (fun hreplace => absurd hreplace h) fun _ => ?_
  refine hite (fun _ => quiet_singleton trivial) fun _ => ?_
  refine hite (fun _ => quiet_singleton trivial) fun _ => ?_
  refine hite (fun _ => quiet_singleton trivial) fun _ => ?_
  refine hite (fun _ => quiet_singleton trivial) fun _ => ?_
  refine hite (fun _ => trivial) fun _ => ?_
  refine hite (fun _ op hop => ?_) fun _ => ?_
  · rw [List.eq_of_mem_replicate hop]
    exact (by decide : (32 : UInt8) ≠ 0)
  refine hite (fun _ => quiet_singleton trivial) fun _ => ?_
  refine hite (fun _ => quiet_singleton trivial) fun _ => ?_
  refine hite (fun _ => arrow_quiet _) fun _ => ?_
  refine hite (fun hprint => quiet_singleton fun hzero => ?_) fun _ => trivial
  rw [hzero] at hprint
  exact absurd hprint (by decide)

theorem decode_replace {k : Key} (h : k.read_buffer.getD 0 0 = 18) :
    decode k = .ops [.prompt_replace k.typed] := by
  obtain ⟨read_buffer, typed, opens, status⟩ := k
  cases read_buffer with
  | nil => exact absurd (show (0 : UInt8) = 18 from h) (by decide)
  | cons c read_buffer =>
      obtain rfl : c = 18 := h
      rfl

/-- When a key leaves the cursor in order: if it is no Ctrl-R, or what is replaced allows it. -/
def KeepsCursor (e : Editor) (k : Key) : Prop :=
  k.read_buffer.getD 0 0 = 18 → ∀ find_str rep_str,
    replace_strings k.typed = some (find_str, rep_str) → ReplaceOk find_str rep_str e

theorem Settled.status {e : Editor} (h : Settled e) (status : String) :
    Settled { e with notify_status := status } :=
  ⟨⟨h.inv.text, h.inv.ring⟩, h.col_le, h.snapshots⟩

theorem saved_bytes_spec {e : Editor} (h : Inv e) :
    saved_bytes e = some ((texts e.lines e.line_count).flatMap fun s => s ++ [10]) := by
  have hcount := h.text.count_le
  unfold saved_bytes texts
  generalize e.line_count = line_count at hcount
  induction line_count with
  | zero => rfl
  | succ n ih =>
      rw [List.range_succ, List.foldlM_append, ih (Nat.le_of_succ_le hcount), List.map_append,
        List.flatMap_append]
      have hclosed := h.text.closed ⟨n, hcount⟩
      have hline : Fin.ofNat MAX_LINES n = ⟨n, hcount⟩ := Fin.ext (Nat.mod_eq_of_lt hcount)
      show Option.bind _ _ = _
      rw [Option.bind_some, List.foldlM_cons, peek_of_lt hcount, Option.bind_some,
        hclosed.c_str_zero, List.map_singleton, List.flatMap_singleton, hline,
        ← List.append_assoc]
      rfl

theorem save_file_settled (opens : Bool) {e : Editor} (h : Settled e) :
    ∃ r, save_file opens e = some r ∧ Settled r.1 := by
  unfold save_file
  split
  · rw [saved_bytes_spec h.inv, Option.map_some]
    exact ⟨_, rfl, ⟨h.inv.text, h.inv.ring⟩, h.col_le, h.snapshots⟩
  · exact ⟨_, rfl, h.status _⟩

/-- **A key that is not Ctrl-R.** -/
theorem press_quiet {e : Editor} (h : Settled e) {k : Key} (hk : k.read_buffer.getD 0 0 ≠ 18) :
    ∃ e', press e k = some e' ∧ Settled e' := by
  have hquiet := decode_quiet hk
  obtain ⟨r, hr, hsaved⟩ := save_file_settled k.opens h
  unfold press
  cases haction : decode k with
  | ops ops =>
      rw [haction] at hquiet
      exact steps_quiet hquiet h
  | save_file => exact ⟨r.1, by rw [hr]; rfl, hsaved⟩
  | trigger_live_web_server => exact ⟨_, by rw [hr]; rfl, hsaved.status k.status⟩
  | other => exact ⟨_, rfl, h.status k.status⟩

/-- **Ctrl-R.** -/
theorem press_replace {e : Editor} (h : Settled e) {k : Key} (hk : k.read_buffer.getD 0 0 = 18) :
    ((∃ e', press e k = some e' ∧ CursorOk e') ↔ KeepsCursor e k) ∧
      ∀ e', press e k = some e' → CursorOk e' → Settled e' := by
  have hpress : press e k = step e (.prompt_replace k.typed) := by
    unfold press
    rw [decode_replace hk]
    exact Option.bind_fun_some _
  have hreturns := step_returns e (.prompt_replace k.typed) h.inv
  have hclear := h.status ""
  rw [hpress]
  refine ⟨?_, fun e' he' hok => ?_⟩
  · have hstep : step e (.prompt_replace k.typed) =
        prompt_replace k.typed { e with notify_status := "" } := rfl
    rw [hstep, KeepsCursor, forall_prop_of_true hk, prompt_replace]
    cases hstrings : replace_strings k.typed with
    | none =>
        refine iff_of_true ⟨_, rfl, hclear.cursorOk⟩ fun find_str rep_str heq => ?_
        exact nomatch heq
    | some strings =>
        obtain ⟨find_str, rep_str⟩ := strings
        have hrep := replace_strings_printable hstrings
        have hiff := replace_all_iff find_str hrep hclear.inv
        constructor
        · rintro ⟨e', he', hok⟩ f r heq
          obtain ⟨rfl, rfl⟩ := Prod.mk.inj (Option.some.inj heq)
          have hreplace := hiff.mp ⟨e', he', hok.col_le⟩
          exact ⟨hreplace.fits, hreplace.col⟩
        · intro hkeeps
          have hreplace := hkeeps find_str rep_str rfl
          obtain ⟨e', he', hcol⟩ := hiff.mpr ⟨hreplace.fits, hreplace.col⟩
          obtain ⟨-, hinv, -⟩ := (replace_all_returns find_str hrep hclear.inv).2 e' he'
          exact ⟨e', he', hinv.text.line_lt, hcol, hinv.text.count_le,
            fun i => (hinv.text.closed i).zero_mem⟩
  · obtain ⟨-, hinv, hhistory⟩ := hreturns.2 e' he'
    exact ⟨hinv, hok.col_le, hhistory.snapshots h⟩

/-- **A key.** -/
theorem press_iff {e : Editor} (h : Settled e) (k : Key) :
    ((∃ e', press e k = some e' ∧ CursorOk e') ↔ KeepsCursor e k) ∧
      ∀ e', press e k = some e' → CursorOk e' → Settled e' := by
  by_cases hk : k.read_buffer.getD 0 0 = 18
  · exact press_replace h hk
  · obtain ⟨e', he', hsettled⟩ := press_quiet h hk
    refine ⟨iff_of_true ⟨e', he', hsettled.cursorOk⟩ fun hreplace => absurd hreplace hk, ?_⟩
    intro e'' he'' _
    rw [he'] at he''
    exact Option.some.inj he'' ▸ hsettled

/-- From any file on, the cursor is in order. -/
theorem load_file_settled (file : Option (List UInt8)) :
    ∃ e, load_file file blank = some e ∧ Settled e := by
  obtain ⟨e, he, hinv, hempty⟩ := load_file_spec file
  have hcol : e.cur_col = 0 := by
    obtain ⟨r, -, hload⟩ := Option.bind_eq_some_iff.mp he
    split at hload
    · obtain ⟨line, -, hload⟩ := Option.bind_eq_some_iff.mp hload
      obtain ⟨line', -, hload⟩ := Option.bind_eq_some_iff.mp hload
      obtain ⟨lines, -, hload⟩ := Option.bind_eq_some_iff.mp hload
      rw [← Option.some.inj hload]
      rfl
    · rw [← Option.some.inj hload]
      rfl
  refine ⟨e, he, hinv, hcol ▸ Nat.zero_le _, fun s hs => ?_⟩
  rw [hempty] at hs
  exact absurd hs List.not_mem_nil

/-- **The cursor in whole runs.** From any file on, every key leaves it in order, exactly when each
Ctrl-R on the way is one that does. -/
theorem cursor_in_order_iff (file : Option (List UInt8)) (keys : List Key) :
    (∃ e, load_file file blank = some e ∧ CursorOk e ∧
        Always press (fun _ _ e' => CursorOk e') e keys) ↔
      ∀ e, load_file file blank = some e → Along press KeepsCursor e keys := by
  obtain ⟨e, he, hsettled⟩ := load_file_settled file
  have hiff := always_iff_along_of (fun _ k h => press_iff h k) keys hsettled
  constructor
  · rintro ⟨f, hf, -, halways⟩ g hg
    obtain rfl := Option.some.inj (he.symm.trans hf)
    obtain rfl := Option.some.inj (he.symm.trans hg)
    exact hiff.mp halways
  · intro halong
    exact ⟨e, he, hsettled.cursorOk, hiff.mpr (halong e he)⟩

/-- The line `aa` with the cursor behind it, of which a replacement leaves nothing. -/
theorem cursor_left_behind :
    ¬∀ (file : Option (List UInt8)) (keys : List Key),
      ∃ e, load_file file blank = some e ∧ CursorOk e ∧
        Always press (fun _ _ e' => CursorOk e') e keys := by
  intro h
  obtain ⟨e, he, -, e₁, he₁, -, e₂, he₂, -, e₃, he₃, hok, -⟩ := h (some [97, 97])
    [⟨[27, 91, 67], [], true, ""⟩, ⟨[27, 91, 67], [], true, ""⟩,
      ⟨[18], [97, 97, 13, 13], true, ""⟩]
  have hcol : ((load_file (some [97, 97]) blank).bind fun e =>
      (press e ⟨[27, 91, 67], [], true, ""⟩).bind fun e =>
      (press e ⟨[27, 91, 67], [], true, ""⟩).bind fun e =>
      (press e ⟨[18], [97, 97, 13, 13], true, ""⟩).map fun e =>
        decide (e.cur_col ≤ (cur_text e).length)) = some false := by
    decide +kernel
  rw [he, Option.bind_some, he₁, Option.bind_some, he₂, Option.bind_some, he₃, Option.map_some,
    decide_eq_true hok.col_le] at hcol
  exact Bool.noConfusion (Option.some.inj hcol)

end SysInC.Tedit
