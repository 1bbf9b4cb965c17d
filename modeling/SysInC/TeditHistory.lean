/-
Replacements, cursor movements and the files, and from them the history of whole runs.
-/
import SysInC.TeditUndo

set_option autoImplicit false

namespace SysInC.Tedit

open SysInC.PartialRun SysInC.CString SysInC.RingStack

/-! ## Replacements -/

/-- A text with its occurrences replaced, from the left, none of them overlapping. -/
def replaced (find_str rep_str : List UInt8) : ℕ → List UInt8 → List UInt8
  | 0, p => p
  | fuel + 1, p =>
      match strstr find_str p with
      | none => p
      | some k =>
          p.take k ++ rep_str ++ replaced find_str rep_str fuel (p.drop (k + find_str.length))

/-- The line with its occurrences replaced fits `temp_line`. -/
def FitsTemp (find_str rep_str text : List UInt8) : Prop :=
  (replaced find_str rep_str text.length text).length < MAX_LINE_LEN * 2

theorem replace_loop_returns (find_str : List UInt8) {rep_str : List UInt8} (hrep : 0 ∉ rep_str)
    (fuel : ℕ) {p : List UInt8} (hp : 0 ∉ p) {temp_line : Buf (MAX_LINE_LEN * 2)}
    (htemp : Closed temp_line) (replaced_count : ℕ) :
    Returns (replace_loop find_str rep_str fuel p temp_line replaced_count)
      ((text temp_line).length + (replaced find_str rep_str fuel p).length < MAX_LINE_LEN * 2)
      fun t => Closed t.1 ∧ text t.1 = text temp_line ++ replaced find_str rep_str fuel p := by
  -- the last piece of the line
  have hlast (temp_line : Buf (MAX_LINE_LEN * 2)) (htemp : Closed temp_line) (p : List UInt8)
      (hp : 0 ∉ p) (count : ℕ) :
      Returns ((strcat temp_line p).map fun t => (t, count))
        ((text temp_line).length + p.length < MAX_LINE_LEN * 2)
        fun t => Closed t.1 ∧ text t.1 = text temp_line ++ p :=
    (htemp.strcat_returns hp).map fun _ ht => ht
  induction fuel generalizing p temp_line replaced_count with
  | zero => exact hlast temp_line htemp p hp replaced_count
  | succ fuel ih =>
      rw [replace_loop, replaced]
      cases strstr find_str p with
      | none => exact hlast temp_line htemp p hp replaced_count
      | some k =>
          have htake : 0 ∉ p.take k := fun hmem => hp (List.mem_of_mem_take hmem)
          have hdrop : 0 ∉ p.drop (k + find_str.length) := fun hmem =>
            hp (List.mem_of_mem_drop hmem)
          generalize hout : text temp_line ++ p.take k ++ rep_str ++ replaced find_str rep_str fuel
            (p.drop (k + find_str.length)) = out
          have hnext (u : Buf (MAX_LINE_LEN * 2))
              (hu : Closed u ∧ text u = text temp_line ++ p.take k ++ rep_str) :
              Returns (replace_loop find_str rep_str fuel (p.drop (k + find_str.length)) u
                (replaced_count + 1)) (out.length < MAX_LINE_LEN * 2)
                fun t => Closed t.1 ∧ text t.1 = out := by
            have hloop := ih hdrop hu.1 (replaced_count + 1)
            rw [hu.2, ← List.length_append, hout] at hloop
            exact hloop
          have hrest (t : Buf (MAX_LINE_LEN * 2))
              (ht : Closed t ∧ text t = text temp_line ++ p.take k) :
              Returns ((strcat t rep_str).bind fun t => replace_loop find_str rep_str fuel
                  (p.drop (k + find_str.length)) t (replaced_count + 1))
                (out.length < MAX_LINE_LEN * 2) fun t => Closed t.1 ∧ text t.1 = out := by
            refine ((ht.1.strcat_returns hrep).bind fun u hu =>
              hnext u ⟨hu.1, by rw [hu.2, ht.2]⟩).congr ?_
            rw [ht.2, ← hout]
            simp only [List.length_append]
            omega
          refine ((htemp.strcat_returns htake).bind hrest).imp ?_ fun t ht => ⟨ht.1, ?_⟩
          · rw [← hout]
            simp only [List.length_append]
            omega
          · rw [ht.2, ← hout]
            simp only [List.append_assoc]

theorem replaced_of_none {find_str rep_str p : List UInt8} (h : strstr find_str p = none)
    (fuel : ℕ) : replaced find_str rep_str fuel p = p := by
  cases fuel with
  | zero => rfl
  | succ fuel => rw [replaced, h]

/-- What the loop of `replace_all` leaves as it is: the lines that it has not come to. -/
def Untouched (start : Lines) (l : ℕ) (r : Lines × ℕ) : Prop :=
  AllClosed r.1 ∧ ∀ j, l ≤ j.val → r.1 j = start j

theorem replace_line_returns (find_str : List UInt8) {rep_str : List UInt8} (hrep : 0 ∉ rep_str)
    {start : Lines} {l : ℕ} (hl : l < MAX_LINES) {r : Lines × ℕ} (hr : Untouched start l r) :
    Returns (replace_line find_str rep_str r l)
      (FitsTemp find_str rep_str (text (start (Fin.ofNat MAX_LINES l))))
      (Untouched start (l + 1)) := by
  have hclosed := hr.1 ⟨l, hl⟩
  have hsame : r.1 ⟨l, hl⟩ = start (Fin.ofNat MAX_LINES l) := by
    rw [show Fin.ofNat MAX_LINES l = ⟨l, hl⟩ from Fin.ext (Nat.mod_eq_of_lt hl)]
    exact hr.2 ⟨l, hl⟩ le_rfl
  rw [replace_line, peek_of_lt hl, Option.bind_some, hclosed.c_str_zero, Option.bind_some,
    hsame]
  rw [hsame] at hclosed
  split
  · next hnone =>
      have hlen := hclosed.text_length_lt
      have hfits : FitsTemp find_str rep_str (text (start (Fin.ofNat MAX_LINES l))) := by
        rw [FitsTemp, replaced_of_none (Option.isNone_iff_eq_none.mp hnone)]
        omega
      exact (Returns.pure ⟨hr.1, fun j hj => hr.2 j (Nat.le_of_succ_le hj)⟩).congr
        (iff_of_true trivial hfits)
  · have hloop := replace_loop_returns find_str hrep (text (start (Fin.ofNat MAX_LINES l))).length
      (zero_notMem_text (start (Fin.ofNat MAX_LINES l))) (closed_zeros 2047) r.2
    refine (hloop.congr ?_).then fun t _ ht => ?_
    · rw [FitsTemp, show text (zeros (2047 + 1)) = [] from rfl, List.length_nil, Nat.zero_add]
    · obtain ⟨line, hcpy, hline, -⟩ := hclosed.strncpy (text t.1)
      rw [hcpy, Option.bind_some, poke_of_lt hl, Option.bind_some]
      refine Returns.pure ⟨hr.1.update _ hline, fun j hj => ?_⟩
      have hne : j ≠ ⟨l, hl⟩ := by
        rintro rfl
        exact Nat.not_succ_le_self l hj
      exact (Function.update_of_ne hne line r.1).trans (hr.2 j (Nat.le_of_succ_le hj))

/-- Every line fits `temp_line` with its occurrences replaced. -/
def AllFit (find_str rep_str : List UInt8) (e : Editor) : Prop :=
  ∀ l, l < e.line_count →
    FitsTemp find_str rep_str (text (e.lines (Fin.ofNat MAX_LINES l)))

theorem replace_all_returns (find_str : List UInt8) {rep_str : List UInt8} (hrep : 0 ∉ rep_str)
    {e : Editor} (h : Inv e) :
    Returns (replace_all find_str rep_str e) (AllFit find_str rep_str e)
      fun e' => Inv e' ∧ EditStep e e' := by
  refine edit_returns h fun e₁ hs => ?_
  have hcount := h.text.count_le
  rw [hs.lines, hs.line_count]
  have hbody (l : ℕ) (hl : l < e.line_count) (r : Lines × ℕ) (hr : Untouched e.lines l r) :
      Returns (replace_line find_str rep_str r l)
        (FitsTemp find_str rep_str (text (e.lines (Fin.ofNat MAX_LINES l))))
        (Untouched e.lines (l + 1)) :=
    replace_line_returns find_str hrep (hl.trans_le hcount) hr
  refine (Returns.range hbody ⟨h.text.closed, fun _ _ => rfl⟩).then fun r _ hr => ?_
  have htext : TextOk r.1 e.line_count e₁.cur_line e₁.cur_col := by
    rw [hs.cur_line, hs.cur_col]
    exact ⟨hr.1, hcount, h.text.line_lt, h.text.col_lt⟩
  split
  · exact Returns.pure ⟨htext, rfl, rfl, rfl⟩
  · exact Returns.pure ⟨htext, rfl, rfl, rfl⟩

/-- A prompt gives back only what it accepts. -/
theorem read_prompt_accepts {accept : UInt8 → Bool} {room : ℕ} {keys s t rest : List UInt8}
    (hs : ∀ c ∈ s, accept c = true) (h : read_prompt accept room s keys = some (t, rest)) :
    ∀ c ∈ t, accept c = true := by
  induction keys generalizing s with
  | nil => exact nomatch h
  | cons c keys ih =>
      rw [read_prompt] at h
      split at h
      · exact nomatch h
      split at h
      · obtain ⟨rfl, -⟩ := Prod.mk.inj (Option.some.inj h)
        exact hs
      split at h
      · exact ih (fun d hd => hs d ((List.dropLast_sublist s).subset hd)) h
      split at h
      · next hc =>
          refine ih (fun d hd => ?_) h
          rcases List.mem_append.mp hd with hd | hd
          · exact hs d hd
          · rw [List.mem_singleton.mp hd]
            exact hc.1
      · exact ih hs h

theorem replace_strings_printable {keys find_str rep_str : List UInt8}
    (h : replace_strings keys = some (find_str, rep_str)) : 0 ∉ rep_str := by
  obtain ⟨t, -, h⟩ := Option.bind_eq_some_iff.mp h
  split at h
  · exact nomatch h
  obtain ⟨r, hr, h⟩ := Option.map_eq_some_iff.mp h
  obtain ⟨-, rfl⟩ := Prod.mk.inj h
  intro hmem
  have hzero := read_prompt_accepts (fun c hc => absurd hc List.not_mem_nil) hr 0 hmem
  exact absurd hzero (by decide)

/-- What is replaced in `prompt_replace`, if it comes to that, fits. -/
theorem prompt_replace_returns (keys : List UInt8) {e : Editor} (h : Inv e) :
    Returns (prompt_replace keys e)
      (∀ find_str rep_str, replace_strings keys = some (find_str, rep_str) →
        AllFit find_str rep_str e)
      fun e' => Inv e' ∧ EditStep e e' := by
  unfold prompt_replace
  split
  · next hnone =>
      refine unchanged_returns h fun find_str rep_str heq => ?_
      rw [hnone] at heq
      exact nomatch heq
  · next find_str rep_str hsome =>
      refine (replace_all_returns find_str (replace_strings_printable hsome) h).congr
        ⟨fun hfit f r heq => ?_, fun hfit => hfit find_str rep_str hsome⟩
      obtain ⟨rfl, rfl⟩ := Prod.mk.inj (Option.some.inj (hsome.symm.trans heq))
      exact hfit

/-! ## Cursor movements -/

/-- The cursor goes to a line and a byte that there are. -/
theorem move_returns {e e' : Editor} (h : Inv e) (hlines : e'.lines = e.lines)
    (hcount : e'.line_count = e.line_count) (hline : e'.cur_line < e.line_count)
    (hcol : e'.cur_col < MAX_LINE_LEN) (hhistory : e'.undo_history = e.undo_history)
    (hhead : e'.undo_head = e.undo_head) (hundo : e'.undo_count = e.undo_count) :
    Returns (some e') True fun e' => Inv e' ∧ MoveStep e e' := by
  refine Returns.pure ⟨⟨?_, ?_⟩, hlines, hcount, ?_⟩
  · rw [hlines, hcount]
    exact ⟨h.text.closed, h.text.count_le, hline, hcol⟩
  · rw [hhistory, hhead, hundo]
    exact h.ring
  · rw [Editor.snapshots, hhistory, hhead, hundo, Editor.snapshots]

theorem stay_returns {e : Editor} (h : Inv e) :
    Returns (some e) True fun e' => Inv e' ∧ MoveStep e e' :=
  move_returns h rfl rfl h.text.line_lt h.text.col_lt rfl rfl rfl

theorem move_to_line_returns {e : Editor} (h : Inv e) {cur_line : ℕ}
    (hline : cur_line < e.line_count) :
    Returns (move_to_line cur_line e) True fun e' => Inv e' ∧ MoveStep e e' := by
  have hlt : cur_line < MAX_LINES := hline.trans_le h.text.count_le
  have hclosed := h.text.closed ⟨cur_line, hlt⟩
  have hlen := hclosed.text_length_lt
  have hcol := h.text.col_lt
  rw [move_to_line, peek_of_lt hlt, Option.bind_some, hclosed.strlen, Option.bind_some]
  refine move_returns h rfl rfl hline ?_ rfl rfl rfl
  dsimp only
  split <;> omega

theorem move_up_returns {e : Editor} (h : Inv e) :
    Returns (move_up e) True fun e' => Inv e' ∧ MoveStep e e' := by
  have hline := h.text.line_lt
  unfold move_up
  split
  · exact move_to_line_returns h (by omega)
  · exact stay_returns h

theorem move_down_returns {e : Editor} (h : Inv e) :
    Returns (move_down e) True fun e' => Inv e' ∧ MoveStep e e' := by
  unfold move_down
  split
  · exact move_to_line_returns h (by omega)
  · exact stay_returns h

theorem move_right_returns {e : Editor} (h : Inv e) :
    Returns (move_right e) True fun e' => Inv e' ∧ MoveStep e e' := by
  have hmax := max_line_len_eq
  have hline := h.text.line_lt_max
  have hclosed := h.text.closed ⟨e.cur_line, hline⟩
  have hlen := hclosed.text_length_lt
  rw [move_right, peek_of_lt hline, Option.bind_some, hclosed.strlen, Option.bind_some]
  split
  · exact move_returns h rfl rfl h.text.line_lt (show e.cur_col + 1 < MAX_LINE_LEN by omega)
      rfl rfl rfl
  split
  · exact move_returns h rfl rfl (show e.cur_line + 1 < e.line_count by omega)
      (show 0 < MAX_LINE_LEN by omega) rfl rfl rfl
  · exact stay_returns h

theorem move_left_returns {e : Editor} (h : Inv e) :
    Returns (move_left e) True fun e' => Inv e' ∧ MoveStep e e' := by
  have hline := h.text.line_lt_max
  have hline_lt := h.text.line_lt
  by_cases hcol : 0 < e.cur_col
  · rw [move_left, if_pos hcol]
    exact move_returns h rfl rfl hline_lt ((Nat.sub_le _ _).trans_lt h.text.col_lt) rfl rfl rfl
  rw [move_left, if_neg hcol]
  split
  · have hprev : e.cur_line - 1 < MAX_LINES := by omega
    have hclosed := h.text.closed ⟨e.cur_line - 1, hprev⟩
    rw [peek_of_lt hprev, Option.bind_some, hclosed.strlen, Option.bind_some]
    exact move_returns h rfl rfl (show e.cur_line - 1 < e.line_count by omega)
      hclosed.text_length_lt rfl rfl rfl
  · exact stay_returns h

theorem strstr_le {find s : List UInt8} {k : ℕ} (h : strstr find s = some k) : k ≤ s.length := by
  induction s generalizing k with
  | nil =>
      rw [strstr] at h
      split at h
      · exact (Option.some.inj h).ge
      · exact nomatch h
  | cons c s ih =>
      rw [strstr] at h
      split at h
      · rw [← Option.some.inj h]
        exact Nat.zero_le _
      · obtain ⟨j, hj, rfl⟩ := Option.map_eq_some_iff.mp h
        exact Nat.succ_le_succ (ih hj)

theorem find_match_returns (query : List UInt8) {e : Editor} (h : Inv e) (steps : List ℕ) :
    Returns (find_match query e steps) True fun found =>
      ∀ l c, found = some (l, c) → l < e.line_count ∧ c < MAX_LINE_LEN := by
  induction steps with
  | nil => exact Returns.pure fun l c hlc => nomatch hlc
  | cons step steps ih =>
      have hpos : 0 < e.line_count := (Nat.zero_le _).trans_lt h.text.line_lt
      have hl := Nat.mod_lt (e.cur_line + step) hpos
      have hlt : (e.cur_line + step) % e.line_count < MAX_LINES := hl.trans_le h.text.count_le
      have hclosed := h.text.closed ⟨_, hlt⟩
      have hlen := hclosed.text_length_lt
      rw [find_match]
      rw [peek_of_lt hlt, Option.bind_some, hclosed.c_str_zero, Option.bind_some]
      generalize (if step = 0 then e.cur_col + 1 else 0) = c_start
      split
      · next hstart =>
          split
          · next k hk =>
              refine Returns.pure fun l c hlc => ?_
              obtain ⟨rfl, rfl⟩ := Prod.mk.inj (Option.some.inj hlc)
              have hle := strstr_le hk
              rw [List.length_map, List.length_drop] at hle
              exact ⟨hl, by omega⟩
          · exact ih
      · exact ih

theorem prompt_search_returns (keys : List UInt8) {e : Editor} (h : Inv e) :
    Returns (prompt_search keys e) True fun e' => Inv e' ∧ MoveStep e e' := by
  unfold prompt_search
  split
  · exact stay_returns h
  · next query _ _ =>
      split
      · exact stay_returns h
      · rw [find_next_match, Option.map_eq_bind]
        refine (find_match_returns query h _).seq fun found hfound => ?_
        cases found with
        | none => exact move_returns h rfl rfl h.text.line_lt h.text.col_lt rfl rfl rfl
        | some lc =>
            have hlc := hfound lc.1 lc.2 rfl
            exact move_returns h rfl rfl hlc.1 hlc.2 rfl rfl rfl

theorem prompt_goto_line_returns (keys : List UInt8) {e : Editor} (h : Inv e) :
    Returns (some (prompt_goto_line keys e)) True fun e' => Inv e' ∧ MoveStep e e' := by
  have hmax := max_line_len_eq
  have hline := h.text.line_lt
  unfold prompt_goto_line
  split
  · exact stay_returns h
  · split
    · exact stay_returns h
    · refine move_returns h rfl rfl ?_ (show 0 < MAX_LINE_LEN by omega) rfl rfl rfl
      show min _ e.line_count - 1 < e.line_count
      omega

/-! ## Files -/

theorem load_lines_spec (fuel : ℕ) (file : List UInt8) {line_count : ℕ} {lines : Lines}
    (h : AllClosed lines) (hcount : line_count ≤ MAX_LINES) :
    ∃ r, load_lines fuel file line_count lines = some r ∧ AllClosed r.1 ∧ r.2 ≤ MAX_LINES := by
  induction fuel generalizing file line_count lines with
  | zero => exact ⟨_, rfl, h, hcount⟩
  | succ fuel ih =>
      rw [load_lines]
      split
      · exact ⟨_, rfl, h, hcount⟩
      dsimp only
      split
      · next hlt =>
          obtain ⟨line, hcpy, hline, -⟩ := (h ⟨line_count, hlt⟩).strncpy
            (chomp (text_of (fgets (MAX_LINE_LEN - 1) file).1))
          obtain ⟨line', hput, hline'⟩ := hline.put_zero
            (show MAX_LINE_LEN - 1 < MAX_LINE_LEN by decide)
          rw [peek_of_lt hlt, Option.bind_some, hcpy, Option.bind_some, hput, Option.bind_some,
            poke_of_lt hlt, Option.bind_some]
          exact ih _ (h.update _ hline') hlt
      · exact ⟨_, rfl, h, hcount⟩

/-- Every file is loaded, cut where it is too long, and the editor starts in order. -/
theorem load_file_spec (file : Option (List UInt8)) :
    ∃ e, load_file file blank = some e ∧ Inv e ∧ e.snapshots = [] := by
  have hblank : AllClosed blank.lines := fun _ => closed_zeros 1023
  have hring : RingOk blank.undo_history 0 0 :=
    ⟨by decide, by decide, fun _ _ => closed_zeros 1023, fun st hst => nomatch hst⟩
  obtain ⟨r, hr, hclosed, hcount⟩ : ∃ r, read_file blank.lines file = some r ∧
      AllClosed r.1 ∧ r.2 ≤ MAX_LINES := by
    cases file with
    | none => exact ⟨_, rfl, hblank, Nat.zero_le _⟩
    | some bytes => exact load_lines_spec bytes.length bytes hblank (Nat.zero_le _)
  rw [load_file, hr, Option.bind_some]
  have hmax := max_line_len_eq
  split
  · have hzero : 0 < MAX_LINES := by decide
    obtain ⟨line, hput, hline⟩ := (hclosed ⟨0, hzero⟩).put_zero
      (show 0 < MAX_LINE_LEN by omega)
    rw [peek_of_lt hzero, Option.bind_some, hput, Option.bind_some, poke_of_lt hzero,
      Option.bind_some]
    exact ⟨_, rfl, ⟨⟨hclosed.update _ hline, hzero, Nat.one_pos, Nat.zero_lt_succ 1023⟩, hring⟩,
      rfl⟩
  · next hne =>
      exact ⟨_, rfl, ⟨⟨hclosed, hcount, Nat.pos_of_ne_zero hne, Nat.zero_lt_succ 1023⟩, hring⟩,
        rfl⟩

/-! ## Runs -/

/-- When a step writes into its buffers only. An insertion or a deletion asks that the cursor be at
most one byte behind its line's text, a replacement that what it makes of each line fit. -/
def InBuffers (e : Editor) (op : Op) : Prop :=
  match op with
  | .insert_char _ =>
      (cur_text e).length < MAX_LINE_LEN - 2 → e.cur_col ≤ (cur_text e).length + 1
  | .delete_char => 0 < e.cur_col → e.cur_col ≤ (cur_text e).length + 1
  | .prompt_replace keys => ∀ find_str rep_str,
      replace_strings keys = some (find_str, rep_str) → AllFit find_str rep_str e
  | _ => True

theorem step_returns (e : Editor) (op : Op) (h : Inv e) :
    Returns (step e op) (InBuffers e op) fun e' => Inv e' ∧ HistoryStep e op e' := by
  -- the status line has no part in it
  have h' : Inv { e with notify_status := "" } := ⟨h.text, h.ring⟩
  cases op with
  | insert_char c => exact insert_char_returns c h'
  | insert_newline_smart => exact insert_newline_smart_returns h'
  | delete_char => exact delete_char_returns h'
  | duplicate_current_line => exact duplicate_current_line_returns h'
  | delete_current_line => exact delete_current_line_returns h'
  | prompt_replace keys => exact prompt_replace_returns keys h'
  | perform_undo => exact returns_of_exists (perform_undo_spec h')
  | move_up => exact move_up_returns h'
  | move_down => exact move_down_returns h'
  | move_right => exact move_right_returns h'
  | move_left => exact move_left_returns h'
  | prompt_search keys => exact prompt_search_returns keys h'
  | prompt_goto_line keys => exact prompt_goto_line_returns keys h'

/-- **The history of a run.** From any file on, every step of a run does to the bounded stack of
snapshots what an edit, a movement or an undo should, exactly when each step of it writes into its
buffers only. -/
theorem undo_history_iff (file : Option (List UInt8)) (ops : List Op) :
    (∃ e, load_file file blank = some e ∧ e.snapshots = [] ∧ Always step HistoryStep e ops) ↔
      ∀ e, load_file file blank = some e → Along step InBuffers e ops := by
  obtain ⟨e, he, hinv, hempty⟩ := load_file_spec file
  have hiff := always_iff_along step_returns ops hinv
  constructor
  · rintro ⟨f, hf, -, halways⟩ g hg
    obtain rfl := Option.some.inj (he.symm.trans hf)
    obtain rfl := Option.some.inj (he.symm.trans hg)
    exact hiff.mp halways
  · intro halong
    exact ⟨e, he, hempty, hiff.mpr (halong e he)⟩

/-- A line of two bytes with the cursor behind it, of which the replacement leaves nothing; then one
more byte is typed. -/
theorem cursor_behind_line :
    ¬∀ (file : Option (List UInt8)) (ops : List Op),
      ∃ e, load_file file blank = some e ∧ e.snapshots = [] ∧ Always step HistoryStep e ops := by
  intro h
  have hnone : ((load_file (some [97, 97]) blank).bind fun e => [Op.move_right, .move_right,
      .prompt_replace [97, 97, 13, 13], .insert_char 97].foldlM step e).isNone = true := by
    decide +kernel
  obtain ⟨e, he, -, halways⟩ := h (some [97, 97])
    [.move_right, .move_right, .prompt_replace [97, 97, 13, 13], .insert_char 97]
  obtain ⟨t, ht⟩ := halways.returns
  rw [he, Option.bind_some, ht] at hnone
  exact Bool.noConfusion hnone

end SysInC.Tedit
