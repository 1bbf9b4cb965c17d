/-
A file that is loaded and saved without an edit.

`load_file` reads rows of at most `MAX_LINE_LEN - 1` bytes, so that a line that is longer falls
apart, and stops behind `MAX_LINES` of them; `save_file` then writes the rows that it has. A carriage
return at the end of a row is dropped, and a file without lines becomes one empty line.
-/
import SysInC.TeditCursor

set_option autoImplicit false

namespace SysInC.Tedit

open SysInC.PartialRun SysInC.CString

/-! ## Files of lines -/

/-- The bytes of a file of lines, each with its newline. -/
def file_of (lines : List (List UInt8)) : List UInt8 := lines.flatMap fun l => l ++ [10]

/-- The bytes that a line may have. -/
def Plain (l : List UInt8) : Prop := 10 ∉ l ∧ 0 ∉ l

theorem file_of_cons (l : List UInt8) (lines : List (List UInt8)) :
    file_of (l :: lines) = l ++ 10 :: file_of lines := by
  rw [file_of, List.flatMap_cons, List.append_assoc, List.singleton_append, ← file_of]

theorem file_of_inj {lines lines' : List (List UInt8)} (h : ∀ l ∈ lines, 10 ∉ l)
    (h' : ∀ l ∈ lines', 10 ∉ l) (heq : file_of lines = file_of lines') : lines = lines' := by
  have hfront {l : List UInt8} (hl : 10 ∉ l) (rest : List UInt8) :
      (l ++ 10 :: rest).takeWhile (· != 10) = l ∧
        (l ++ 10 :: rest).dropWhile (· != 10) = 10 :: rest := by
    have hall : ∀ c ∈ l, (c != 10) = true := by
      intro c hc
      rw [bne_iff_ne]
      rintro rfl
      exact hl hc
    refine ⟨?_, ?_⟩
    · rw [List.takeWhile_append_of_pos hall, List.takeWhile_cons_of_neg (by simp),
        List.append_nil]
    · rw [List.dropWhile_append_of_pos hall, List.dropWhile_cons_of_neg (by simp)]
  induction lines generalizing lines' with
  | nil =>
      cases lines' with
      | nil => rfl
      | cons l' lines' =>
          rw [file_of_cons] at heq
          exact absurd heq.symm (List.append_ne_nil_of_right_ne_nil _ (List.cons_ne_nil _ _))
  | cons l lines ih =>
      cases lines' with
      | nil =>
          rw [file_of_cons] at heq
          exact absurd heq (List.append_ne_nil_of_right_ne_nil _ (List.cons_ne_nil _ _))
      | cons l' lines' =>
          rw [List.forall_mem_cons] at h h'
          rw [file_of_cons, file_of_cons] at heq
          have hline := congrArg (List.takeWhile (· != 10)) heq
          have hrest := congrArg (List.dropWhile (· != 10)) heq
          rw [(hfront h.1 _).1, (hfront h'.1 _).1] at hline
          rw [(hfront h.1 _).2, (hfront h'.1 _).2] at hrest
          rw [hline, ih h.2 h'.2 (List.cons.inj hrest).2]

/-! ## Rows -/

/-- The rows that `load_file` reads, if it reads them all. -/
def rows : ℕ → List UInt8 → List (List UInt8)
  | 0, _ => []
  | fuel + 1, file =>
      if file = [] then []
      else
        let buf := fgets (MAX_LINE_LEN - 1) file
        chomp (text_of buf.1) :: rows fuel buf.2

/-- A line fills the buffer or ends in it. -/
theorem fgets_line {l : List UInt8} (hl : 10 ∉ l) (rest : List UInt8) (room : ℕ) :
    fgets room (l ++ 10 :: rest) =
      if l.length < room then (l ++ [10], rest) else (l.take room, l.drop room ++ 10 :: rest) := by
  induction l generalizing room with
  | nil =>
      cases room with
      | zero => rfl
      | succ room => rfl
  | cons c l ih =>
      cases room with
      | zero => rfl
      | succ room =>
          rw [List.mem_cons, not_or] at hl
          have hlen : (c :: l).length < room + 1 ↔ l.length < room := Nat.succ_lt_succ_iff
          rw [List.cons_append, fgets, if_neg (Ne.symm hl.1), ih hl.2]
          by_cases h : l.length < room
          · rw [if_pos h, if_pos (hlen.mpr h)]
            rfl
          · rw [if_neg h, if_neg (mt hlen.mp h)]
            rfl

theorem fgets_length_le (room : ℕ) (file : List UInt8) : (fgets room file).1.length ≤ room := by
  induction room generalizing file with
  | zero => exact le_rfl
  | succ room ih =>
      cases file with
      | nil => exact Nat.zero_le _
      | cons c file =>
          rw [fgets]
          split
          · exact Nat.succ_le_succ (Nat.zero_le _)
          · exact Nat.succ_le_succ (ih file)

/-- A row has no newline but, perhaps, at its end. -/
theorem fgets_newline (room : ℕ) (file : List UInt8) :
    ∃ l, 10 ∉ l ∧ ((fgets room file).1 = l ∨ (fgets room file).1 = l ++ [10]) := by
  induction room generalizing file with
  | zero => exact ⟨[], List.not_mem_nil, Or.inl rfl⟩
  | succ room ih =>
      cases file with
      | nil => exact ⟨[], List.not_mem_nil, Or.inl rfl⟩
      | cons c file =>
          rw [fgets]
          split
          · next hc => exact ⟨[], List.not_mem_nil, Or.inr (by rw [hc, List.nil_append])⟩
          · next hc =>
              obtain ⟨l, hl, hrow⟩ := ih file
              refine ⟨c :: l, fun hmem => ?_, ?_⟩
              · rcases List.mem_cons.mp hmem with heq | hmem
                · exact hc heq.symm
                · exact hl hmem
              · dsimp only
                rcases hrow with hrow | hrow
                · exact Or.inl (by rw [hrow])
                · exact Or.inr (by rw [hrow, List.cons_append])

theorem text_of_self {l : List UInt8} (h : 0 ∉ l) : text_of l = l := by
  refine List.takeWhile_eq_self_iff.mpr fun c hc => ?_
  rw [bne_iff_ne]
  rintro rfl
  exact h hc

theorem chomp_newline (l : List UInt8) : chomp (l ++ [10]) = chomp l :=
  List.rdropWhile_concat_pos _ _ _ rfl

theorem chomp_eq_self {l : List UInt8} (hl : 10 ∉ l) :
    chomp l = l ↔ l.getLast? ≠ some 13 := by
  rw [chomp, List.rdropWhile_eq_self_iff]
  cases l using List.reverseRecOn with
  | nil => simp
  | append_singleton l c =>
      have hc : c ≠ 10 := fun heq => hl (heq ▸ List.mem_append_right _ (List.mem_singleton_self c))
      simp [hc]

theorem rows_short {l : List UInt8} (hl : Plain l) (hlen : l.length < MAX_LINE_LEN - 1)
    (rest : List UInt8) (fuel : ℕ) :
    rows (fuel + 1) (l ++ 10 :: rest) = chomp l :: rows fuel rest := by
  have hzero : 0 ∉ l ++ [10] := by
    rw [List.mem_append, not_or]
    exact ⟨hl.2, by decide⟩
  rw [rows, if_neg (List.append_ne_nil_of_right_ne_nil _ (List.cons_ne_nil _ _)),
    fgets_line hl.1, if_pos hlen]
  dsimp only
  rw [text_of_self hzero, chomp_newline]

theorem rows_long {l : List UInt8} (hl : Plain l) (hlen : MAX_LINE_LEN - 1 ≤ l.length)
    (rest : List UInt8) (fuel : ℕ) :
    rows (fuel + 1) (l ++ 10 :: rest) =
      chomp (l.take (MAX_LINE_LEN - 1)) ::
        rows fuel (l.drop (MAX_LINE_LEN - 1) ++ 10 :: rest) := by
  have hzero : 0 ∉ l.take (MAX_LINE_LEN - 1) := fun hmem => hl.2 (List.mem_of_mem_take hmem)
  rw [rows, if_neg (List.append_ne_nil_of_right_ne_nil _ (List.cons_ne_nil _ _)),
    fgets_line hl.1, if_neg (Nat.not_lt.mpr hlen)]
  dsimp only
  rw [text_of_self hzero]

/-! ## The lines that come back -/

/-- Lines that are their own rows, the first `room` of them. -/
def Fits : ℕ → List (List UInt8) → Prop
  | _, [] => True
  | room, l :: lines =>
      0 < room ∧ l.getLast? ≠ some 13 ∧
        ((l.length < MAX_LINE_LEN - 1 ∧ Fits (room - 1) lines) ∨
          -- the row that is left of the line pushes an empty line out at the end
          (l.length = MAX_LINE_LEN - 1 ∧ lines = List.replicate (room - 1) []))

theorem length_file_of_cons (l : List UInt8) (lines : List (List UInt8)) :
    (file_of (l :: lines)).length = l.length + 1 + (file_of lines).length := by
  rw [file_of_cons, List.length_append, List.length_cons]
  omega

/-- An empty row in front goes unnoticed where all rows behind it are empty. -/
theorem empty_row_iff {lines : List (List UInt8)} (hlines : ∀ l ∈ lines, Plain l) {fuel : ℕ}
    (hfuel : (file_of lines).length ≤ fuel) (room : ℕ) :
    ([] :: rows fuel (file_of lines)).take room = lines ↔ lines = List.replicate room [] := by
  induction lines generalizing fuel room with
  | nil =>
      cases room with
      | zero => exact iff_of_true rfl rfl
      | succ room => exact iff_of_false (List.cons_ne_nil _ _) (List.cons_ne_nil _ _).symm
  | cons l lines ih =>
      cases room with
      | zero => exact iff_of_false (List.cons_ne_nil _ _).symm (List.cons_ne_nil _ _)
      | succ room =>
          rw [List.forall_mem_cons] at hlines
          rw [length_file_of_cons] at hfuel
          rw [List.take_succ_cons, List.replicate_succ, List.cons.injEq, List.cons.injEq]
          have hback : l = [] → ((rows fuel (file_of (l :: lines))).take room = lines ↔
              lines = List.replicate room []) := by
            rintro rfl
            obtain ⟨f, rfl⟩ := Nat.exists_eq_add_one_of_ne_zero (by omega : fuel ≠ 0)
            have hrow := rows_short hlines.1 (by decide : 0 < MAX_LINE_LEN - 1) (file_of lines) f
            rw [file_of_cons, hrow]
            exact ih hlines.2 (by rw [List.length_nil] at hfuel; omega) room
          constructor
          · rintro ⟨hnil, hrest⟩
            exact ⟨hnil.symm, (hback hnil.symm).mp hrest⟩
          · rintro ⟨hnil, hrest⟩
            exact ⟨hnil.symm, (hback hnil).mpr hrest⟩

theorem rows_take_iff {lines : List (List UInt8)} (hlines : ∀ l ∈ lines, Plain l) {fuel : ℕ}
    (hfuel : (file_of lines).length ≤ fuel) (room : ℕ) :
    (rows fuel (file_of lines)).take room = lines ↔ Fits room lines := by
  induction lines generalizing fuel room with
  | nil =>
      refine iff_of_true ?_ trivial
      cases fuel with
      | zero => exact List.take_nil
      | succ fuel => exact List.take_nil
  | cons l lines ih =>
      have hmax := max_line_len_eq
      cases room with
      | zero => exact iff_of_false (List.cons_ne_nil _ _).symm fun h => Nat.lt_irrefl 0 h.1
      | succ room =>
          rw [List.forall_mem_cons] at hlines
          rw [length_file_of_cons] at hfuel
          obtain ⟨f, rfl⟩ := Nat.exists_eq_add_one_of_ne_zero (by omega : fuel ≠ 0)
          rw [Fits, Nat.add_sub_cancel, file_of_cons]
          by_cases hlen : l.length < MAX_LINE_LEN - 1
          · rw [rows_short hlines.1 hlen, List.take_succ_cons, List.cons.injEq,
              chomp_eq_self hlines.1.1, ih hlines.2 (by omega)]
            constructor
            · rintro ⟨hlast, hfits⟩
              exact ⟨Nat.succ_pos _, hlast, Or.inl ⟨hlen, hfits⟩⟩
            · rintro ⟨-, hlast, ⟨-, hfits⟩ | ⟨heq, -⟩⟩
              · exact ⟨hlast, hfits⟩
              · omega
          · rw [rows_long hlines.1 (Nat.not_lt.mp hlen), List.take_succ_cons, List.cons.injEq]
            have hexact (heq : l.length = MAX_LINE_LEN - 1) :
                (rows f (l.drop (MAX_LINE_LEN - 1) ++ 10 :: file_of lines)).take room = lines ↔
                  lines = List.replicate room [] := by
              obtain ⟨g, rfl⟩ := Nat.exists_eq_add_one_of_ne_zero (by omega : f ≠ 0)
              have hrow := rows_short (l := []) ⟨List.not_mem_nil, List.not_mem_nil⟩
                (by decide : 0 < MAX_LINE_LEN - 1) (file_of lines) g
              rw [List.drop_of_length_le heq.le, hrow]
              exact empty_row_iff hlines.2 (by omega) room
            constructor
            · rintro ⟨hfront, hrest⟩
              have hle : l.length ≤ MAX_LINE_LEN - 1 := by
                rw [← hfront]
                exact (List.rdropWhile_prefix _ _).length_le.trans (List.length_take_le _ _)
              have heq : l.length = MAX_LINE_LEN - 1 := Nat.le_antisymm hle (Nat.not_lt.mp hlen)
              rw [List.take_of_length_le hle, chomp_eq_self hlines.1.1] at hfront
              exact ⟨Nat.succ_pos _, hfront, Or.inr ⟨heq, (hexact heq).mp hrest⟩⟩
            · rintro ⟨-, hlast, ⟨hlt, -⟩ | ⟨heq, hrest⟩⟩
              · exact absurd hlt hlen
              · rw [List.take_of_length_le heq.le, chomp_eq_self hlines.1.1]
                exact ⟨hlast, (hexact heq).mpr hrest⟩

/-- The same condition on the file as a whole: no more than `room` lines, no carriage return at the
end of one, none too long but, perhaps, one that fills the buffer and is followed by empty lines up
to the last row. -/
structure Kept (room : ℕ) (lines : List (List UInt8)) : Prop where
  count : lines.length ≤ room
  no_return : ∀ l ∈ lines, l.getLast? ≠ some 13
  length : (∀ l ∈ lines, l.length < MAX_LINE_LEN - 1) ∨
    ∃ front last, lines = front ++ last :: List.replicate (room - 1 - front.length) [] ∧
      (∀ l ∈ front, l.length < MAX_LINE_LEN - 1) ∧ last.length = MAX_LINE_LEN - 1

theorem fits_iff (room : ℕ) (lines : List (List UInt8)) : Fits room lines ↔ Kept room lines := by
  have hmax := max_line_len_eq
  induction lines generalizing room with
  | nil =>
      refine iff_of_true trivial ⟨Nat.zero_le _, fun l hl => absurd hl List.not_mem_nil, ?_⟩
      exact Or.inl fun l hl => absurd hl List.not_mem_nil
  | cons l lines ih =>
      cases room with
      | zero => exact iff_of_false (fun h => Nat.lt_irrefl 0 h.1) fun h => nomatch h.count
      | succ room =>
          have hrest := ih room
          rw [Fits, Nat.add_sub_cancel]
          constructor
          · rintro ⟨-, hlast, ⟨hlen, hfits⟩ | ⟨hlen, rfl⟩⟩
            · have hkept := hrest.mp hfits
              refine ⟨Nat.succ_le_succ hkept.count, List.forall_mem_cons.mpr ⟨hlast,
                hkept.no_return⟩, ?_⟩
              rcases hkept.length with hall | ⟨front, last, rfl, hfront, hlong⟩
              · exact Or.inl (List.forall_mem_cons.mpr ⟨hlen, hall⟩)
              · refine Or.inr ⟨l :: front, last, ?_, List.forall_mem_cons.mpr ⟨hlen, hfront⟩, hlong⟩
                rw [List.cons_append, List.length_cons,
                  show room + 1 - 1 - (front.length + 1) = room - 1 - front.length by omega]
            · refine ⟨?_, List.forall_mem_cons.mpr ⟨hlast, fun e he => ?_⟩, Or.inr ⟨[], l, ?_⟩⟩
              · rw [List.length_cons, List.length_replicate]
              · rw [List.eq_of_mem_replicate he]
                exact (Option.some_ne_none 13).symm
              · exact ⟨rfl, fun e he => absurd he List.not_mem_nil, hlen⟩
          · intro hkept
            have hcount := Nat.le_of_succ_le_succ hkept.count
            obtain ⟨hlast, hreturns⟩ := List.forall_mem_cons.mp hkept.no_return
            refine ⟨Nat.succ_pos _, hlast, ?_⟩
            rcases hkept.length with hall | ⟨front, last, heq, hfront, hlong⟩
            · obtain ⟨hlen, hall⟩ := List.forall_mem_cons.mp hall
              exact Or.inl ⟨hlen, hrest.mpr ⟨hcount, hreturns, Or.inl hall⟩⟩
            · cases front with
              | nil =>
                  obtain ⟨rfl, rfl⟩ := List.cons.inj heq
                  exact Or.inr ⟨hlong, rfl⟩
              | cons e front =>
                  rw [List.cons_append] at heq
                  obtain ⟨rfl, rfl⟩ := List.cons.inj heq
                  obtain ⟨hlen, hfront⟩ := List.forall_mem_cons.mp hfront
                  refine Or.inl ⟨hlen, hrest.mpr ⟨hcount, hreturns,
                    Or.inr ⟨front, last, ?_, hfront, hlong⟩⟩⟩
                  rw [List.length_cons,
                    show room + 1 - 1 - (front.length + 1) = room - 1 - front.length by omega]

/-! ## Loading and saving -/

theorem texts_update (lines : Lines) {n : ℕ} (hn : n < MAX_LINES) (line : Buf MAX_LINE_LEN) :
    texts (Function.update lines ⟨n, hn⟩ line) (n + 1) = texts lines n ++ [text line] := by
  rw [texts, List.range_succ, List.map_append, List.map_singleton, texts]
  congr 1
  · refine List.map_congr_left fun i hi => ?_
    have hlt := List.mem_range.mp hi
    rw [Function.update_of_ne]
    intro heq
    have hval := congrArg Fin.val heq
    rw [Fin.val_ofNat, Nat.mod_eq_of_lt (hlt.trans hn)] at hval
    exact Nat.ne_of_lt hlt hval
  · rw [show Fin.ofNat MAX_LINES n = ⟨n, hn⟩ from Fin.ext (Nat.mod_eq_of_lt hn),
      Function.update_self]

/-- The last byte of a closed buffer is NUL already. -/
theorem put_last_zero {b b' : Buf MAX_LINE_LEN} (h : Closed b)
    (hp : put b (MAX_LINE_LEN - 1) 0 = some b') : b'.val = b.val := by
  obtain ⟨front, hb⟩ := h
  have hlen := Closed.length_front hb
  rw [(write_some hp).2, hb, List.take_append_of_le_length (by omega),
    List.take_of_length_le (by omega), List.drop_eq_nil_of_le, List.append_nil]
  rw [List.length_append, List.length_singleton]
  omega

theorem load_lines_texts (fuel : ℕ) (file : List UInt8) {line_count : ℕ} {lines : Lines}
    (h : AllClosed lines) (hcount : line_count ≤ MAX_LINES) {r : Lines × ℕ}
    (hr : load_lines fuel file line_count lines = some r) :
    texts r.1 r.2 = texts lines line_count ++ (rows fuel file).take (MAX_LINES - line_count) := by
  induction fuel generalizing file line_count lines with
  | zero =>
      rw [← Option.some.inj hr, rows, List.take_nil, List.append_nil]
  | succ fuel ih =>
      rw [load_lines] at hr
      rw [rows]
      split at hr
      · next hnil => rw [← Option.some.inj hr, if_pos hnil, List.take_nil, List.append_nil]
      next hne =>
      dsimp only at hr ⊢
      rw [if_neg hne]
      have hfgets := fgets_length_le (MAX_LINE_LEN - 1) file
      split at hr
      · next hlt =>
          obtain ⟨line, hcpy, hline, htext⟩ := (h ⟨line_count, hlt⟩).strncpy
            (chomp (text_of (fgets (MAX_LINE_LEN - 1) file).1))
          rw [peek_of_lt hlt, Option.bind_some, hcpy, Option.bind_some] at hr
          obtain ⟨line', hput, hr⟩ := Option.bind_eq_some_iff.mp hr
          rw [poke_of_lt hlt, Option.bind_some] at hr
          have hline' : Closed line' := by
            obtain ⟨front, hfront⟩ := hline
            exact ⟨front, (put_last_zero ⟨front, hfront⟩ hput).trans hfront⟩
          have hrow : text line' = chomp (text_of (fgets (MAX_LINE_LEN - 1) file).1) := by
            rw [text, put_last_zero hline hput, ← text, htext, List.take_of_length_le]
            · exact ((List.rdropWhile_prefix _ _).length_le.trans
                (List.takeWhile_prefix _).length_le).trans hfgets
            · intro hmem
              exact zero_notMem_text_of _ ((List.rdropWhile_prefix _ _).subset hmem)
          rw [ih _ (h.update _ hline') hlt hr, texts_update, hrow,
            show MAX_LINES - line_count = MAX_LINES - (line_count + 1) + 1 by omega,
            List.take_succ_cons, List.append_assoc, List.singleton_append]
      · next hfull =>
          rw [← Option.some.inj hr, show MAX_LINES - line_count = 0 by omega, List.take_zero,
            List.append_nil]

theorem rows_no_newline (fuel : ℕ) (file : List UInt8) : ∀ l ∈ rows fuel file, 10 ∉ l := by
  induction fuel generalizing file with
  | zero => exact fun l hl => absurd hl List.not_mem_nil
  | succ fuel ih =>
      rw [rows]
      split
      · exact fun l hl => absurd hl List.not_mem_nil
      · refine List.forall_mem_cons.mpr ⟨?_, ih _⟩
        obtain ⟨l, hl, hrow⟩ := fgets_newline (MAX_LINE_LEN - 1) file
        have hprefix : text_of (fgets (MAX_LINE_LEN - 1) file).1 <+:
            (fgets (MAX_LINE_LEN - 1) file).1 := List.takeWhile_prefix _
        generalize text_of (fgets (MAX_LINE_LEN - 1) file).1 = t at hprefix
        have hchomp : chomp t <+: t := List.rdropWhile_prefix _ _
        rcases hrow with hrow | hrow
        · rw [hrow] at hprefix
          exact fun hmem => hl ((hchomp.trans hprefix).subset hmem)
        · rw [hrow, List.prefix_concat_iff] at hprefix
          rcases hprefix with rfl | hprefix
          · rw [chomp_newline]
            exact fun hmem => hl ((List.rdropWhile_prefix _ _).subset hmem)
          · exact fun hmem => hl ((hchomp.trans hprefix).subset hmem)

/-- What stands in the editor behind `load_file`. -/
theorem load_file_texts {bytes : List UInt8} {e : Editor}
    (he : load_file (some bytes) blank = some e) :
    texts e.lines e.line_count =
      if rows bytes.length bytes = [] then [[]]
      else (rows bytes.length bytes).take MAX_LINES := by
  obtain ⟨r, hr, he⟩ := Option.bind_eq_some_iff.mp he
  have hclosed : AllClosed blank.lines := fun _ => closed_zeros 1023
  have htexts := load_lines_texts bytes.length bytes hclosed (Nat.zero_le _) hr
  rw [show texts blank.lines 0 = [] from rfl, List.nil_append, Nat.sub_zero] at htexts
  have hcount : r.2 = ((rows bytes.length bytes).take MAX_LINES).length := by
    rw [← htexts, texts, List.length_map, List.length_range]
  have hmax := max_lines_eq
  split at he
  · next hzero =>
      obtain ⟨line, hpeek, he⟩ := Option.bind_eq_some_iff.mp he
      obtain ⟨line', hput, he⟩ := Option.bind_eq_some_iff.mp he
      rw [poke_of_lt (by omega), Option.bind_some] at he
      obtain rfl := Option.some.inj he
      rw [hzero, List.length_take, hmax] at hcount
      have hempty : text line' = [] := by
        rw [text, (write_some hput).2]
        rfl
      rw [if_pos (List.length_eq_zero_iff.mp (by omega)), texts_update, hempty]
      rfl
  · next hne =>
      rw [← Option.some.inj he, if_neg, htexts]
      intro hnil
      rw [hnil, List.take_nil] at hcount
      exact hne hcount

/-- The bytes that are written back. -/
theorem save_loaded (bytes : List UInt8) :
    ∃ e e', load_file (some bytes) blank = some e ∧
      save_file true e = some (e', some (file_of (if rows bytes.length bytes = [] then [[]]
        else (rows bytes.length bytes).take MAX_LINES))) := by
  obtain ⟨e, he, hsettled⟩ := load_file_settled (some bytes)
  refine ⟨e, { e with is_modified := false, notify_status := "[✔ Salvo com Sucesso!]" }, he, ?_⟩
  rw [save_file, if_pos rfl, saved_bytes_spec hsettled.inv, load_file_texts he]
  rfl

theorem written_back_iff (bytes saved : List UInt8) :
    (∃ e e', load_file (some bytes) blank = some e ∧ save_file true e = some (e', some saved)) ↔
      saved = file_of (if rows bytes.length bytes = [] then [[]]
        else (rows bytes.length bytes).take MAX_LINES) := by
  obtain ⟨e, e', he, hsave⟩ := save_loaded bytes
  constructor
  · rintro ⟨f, f', hf, hsaved⟩
    obtain rfl := Option.some.inj (he.symm.trans hf)
    exact Option.some.inj (Prod.mk.inj (Option.some.inj (hsaved.symm.trans hsave))).2
  · rintro rfl
    exact ⟨e, e', he, hsave⟩

theorem rows_of_lines_iff {lines : List (List UInt8)} (hlines : ∀ l ∈ lines, Plain l) :
    file_of lines = file_of (if rows (file_of lines).length (file_of lines) = [] then [[]]
        else (rows (file_of lines).length (file_of lines)).take MAX_LINES) ↔
      lines ≠ [] ∧ Kept MAX_LINES lines := by
  rw [← fits_iff, ← rows_take_iff hlines le_rfl]
  cases lines with
  | nil => exact iff_of_false (by decide) fun h => h.1 rfl
  | cons l lines =>
      have hrows : rows (file_of (l :: lines)).length (file_of (l :: lines)) ≠ [] := by
        obtain ⟨f, hf⟩ := Nat.exists_eq_add_one_of_ne_zero
          (by rw [length_file_of_cons]; omega : (file_of (l :: lines)).length ≠ 0)
        rw [hf, rows, if_neg (List.ne_nil_of_length_eq_add_one hf)]
        exact List.cons_ne_nil _ _
      rw [if_neg hrows]
      constructor
      · intro heq
        refine ⟨List.cons_ne_nil _ _, (file_of_inj (fun e he => (hlines e he).1) (fun e he => ?_)
          heq).symm⟩
        exact rows_no_newline _ _ e (List.mem_of_mem_take he)
      · exact fun h => by rw [h.2]

/-- **Loading and saving.** A file of lines is written back as it was exactly when it has a line, no
more lines than the editor has rows, no carriage return in front of a newline, and no line too long
but the one at the end of `Kept`. -/
theorem saved_unchanged_iff {lines : List (List UInt8)} (hlines : ∀ l ∈ lines, Plain l) :
    (∃ e e', load_file (some (file_of lines)) blank = some e ∧
        save_file true e = some (e', some (file_of lines))) ↔
      lines ≠ [] ∧ Kept MAX_LINES lines := by
  rw [written_back_iff, rows_of_lines_iff hlines]

theorem saved_unchanged_two : ∃ e e', load_file (some (file_of [[97], []])) blank = some e ∧
    save_file true e = some (e', some (file_of [[97], []])) :=
  (@saved_unchanged_iff [[97], []] (by unfold Plain; decide)).mpr
    ⟨List.cons_ne_nil _ _, by decide, by decide, Or.inl (by decide)⟩

/-- A line that does not fit its row comes back as two. -/
theorem long_line_split : ¬∀ lines : List (List UInt8), (∀ l ∈ lines, Plain l) →
    ∃ e e', load_file (some (file_of lines)) blank = some e ∧
      save_file true e = some (e', some (file_of lines)) := by
  intro h
  have hlines : ∀ l ∈ [List.replicate 1024 (97 : UInt8)], Plain l := by
    intro l hl
    rw [List.mem_singleton.mp hl]
    exact ⟨fun hmem => absurd (List.eq_of_mem_replicate hmem) (by decide),
      fun hmem => absurd (List.eq_of_mem_replicate hmem) (by decide)⟩
  have hkept := ((rows_of_lines_iff hlines).mp ((written_back_iff _ _).mp (h _ hlines))).2
  rcases hkept.length with hall | ⟨front, last, heq, -, hlong⟩
  · have hlen := hall _ (List.mem_singleton_self _)
    rw [List.length_replicate] at hlen
    exact absurd hlen (by decide)
  · have hmem : last ∈ [List.replicate 1024 (97 : UInt8)] := by
      rw [heq]
      exact List.mem_append_right _ List.mem_cons_self
    rw [List.mem_singleton.mp hmem, List.length_replicate] at hlong
    exact absurd hlong (by decide)

end SysInC.Tedit
