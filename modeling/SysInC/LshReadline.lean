/-
`lsh_readline` and `perform_tab_completion` of `low-utils/lsh.c`: the line editor of the shell.

The line stands in a buffer, and what is typed is moved about in it. Against an editor of texts that
has no buffer: whatever the keys, nothing is written outside, and the line is the same.

`strncpy` puts no NUL behind what fills its length. Where a line from the history is as long as the
buffer but one, the last byte of the buffer has to be NUL already; the caller does not see to it.
-/
import SysInC.CString
import SysInC.CText
import SysInC.LineEditor

set_option autoImplicit false

namespace SysInC.LshReadline

open PartialRun CString LineEditor

/-! ## The source -/

def MAX_LINE_LEN : ℕ := 2048

/-- The locals of `lsh_readline`, with `out_buf`. -/
structure readline (n : ℕ) where
  out_buf : Buf n
  len : ℕ
  pos : ℕ
  hist_idx : ℕ
  temp_backup : Buf MAX_LINE_LEN

/-- What `lsh_readline` comes to: 0, `exit(0)`, or 1 with the line. -/
inductive Outcome (τ : Type) where
  | eof
  | exit
  | line (text : τ)

variable {n : ℕ}

/-- `memmove(&b[pos + k], &b[pos], len - pos + 1)` and then the `k` bytes at `&b[pos]`. -/
def insert_bytes (b : Buf n) (len pos : ℕ) (bytes : List UInt8) : Option (Buf n) :=
  (memmove b (pos + bytes.length) pos (size_sub (len + 1) pos)).bind fun b => write b pos bytes

/-- The characters that end a word. -/
def ends_token (c : UInt8) : Bool := c == 32 || c == 9 || c == 124 || c == 38 || c == 59

/-- The loop back to the start of the word. -/
def token_start (b : Buf n) : ℕ → Option ℕ
  | 0 => some 0
  | k + 1 => (b.val[k]?).bind fun c => if ends_token c then some (k + 1) else token_start b k

/-- The completion where there is one match, which has the word in front. -/
def apply_match (max_len plen : ℕ) (m : List UInt8) (s : readline n) : Option (readline n) :=
  if m.length < plen then none else
  let suffix := CText.snprintf 256 (m.drop plen)
  let s_len := suffix.length
  if s.len + s_len + 1 < max_len then
    (insert_bytes s.out_buf s.len s.pos suffix).bind fun out_buf =>
      let s := { s with out_buf, len := s.len + s_len, pos := s.pos + s_len }
      (m[m.length - 1]?).bind fun last =>
        if last ≠ 47 then
          (insert_bytes s.out_buf s.len s.pos [32]).map fun out_buf =>
            { s with out_buf, len := s.len + 1, pos := s.pos + 1 }
        else some s
  else some s

/-- `complete` gives the matches for a word in the place of a command, or not. -/
def perform_tab_completion (complete : Bool → List UInt8 → List (List UInt8)) (max_len : ℕ)
    (s : readline n) : Option (readline n) :=
  if s.pos = 0 ∧ s.len = 0 then some s
  else
    (token_start s.out_buf s.pos).bind fun start =>
      let plen := if 256 ≤ s.pos - start then 255 else s.pos - start
      let word := (s.out_buf.val.drop start).take plen
      let is_command := (s.out_buf.val.take start).all fun c => c == 32 || c == 9
      match complete is_command word with
      | [m] => apply_match max_len plen m s
      | _ => some s

/-- `strncpy(out_buf, line, max_len - 1); len = strlen(out_buf); pos = len;` -/
def call_up (max_len : ℕ) (line : List UInt8) (s : readline n) : Option (readline n) :=
  (strncpy s.out_buf line (max_len - 1)).bind fun out_buf =>
    (strlen out_buf).map fun len => { s with out_buf, len, pos := len }

def arrow_up (history : List (List UInt8)) (max_len : ℕ) (s : readline n) : Option (readline n) :=
  if 0 < history.length ∧ 0 < s.hist_idx then
    (if s.hist_idx = history.length then
      (c_str s.out_buf 0).bind fun line =>
        (strncpy s.temp_backup line (MAX_LINE_LEN - 1)).map fun temp_backup =>
          { s with temp_backup }
    else some s).bind fun s =>
      (history[s.hist_idx - 1]?).bind fun line =>
        call_up max_len line { s with hist_idx := s.hist_idx - 1 }
  else some s

def arrow_down (history : List (List UInt8)) (max_len : ℕ) (s : readline n) :
    Option (readline n) :=
  if s.hist_idx < history.length then
    (if s.hist_idx + 1 = history.length then c_str s.temp_backup 0
      else history[s.hist_idx + 1]?).bind fun line =>
        call_up max_len line { s with hist_idx := s.hist_idx + 1 }
  else some s

/-- A sequence behind an escape. -/
def escape (history : List (List UInt8)) (max_len : ℕ) (seq0 seq1 : UInt8) (s : readline n) :
    Option (readline n) :=
  if seq0 = 91 then
    if seq1 = 65 then arrow_up history max_len s
    else if seq1 = 66 then arrow_down history max_len s
    else if seq1 = 67 then some (if s.pos < s.len then { s with pos := s.pos + 1 } else s)
    else if seq1 = 68 then some (if 0 < s.pos then { s with pos := s.pos - 1 } else s)
    else if seq1 = 72 ∨ seq1 = 49 then some (if 0 < s.pos then { s with pos := 0 } else s)
    else if seq1 = 70 ∨ seq1 = 52 then some (if s.pos < s.len then { s with pos := s.len } else s)
    else some s
  else some s

/-- `isprint` in the locale "C", or a byte of another character. -/
def is_text (c : UInt8) : Bool := (32 ≤ c && c ≤ 126) || 128 ≤ c

/-- A turn of the loop for a byte that neither ends it nor begins a sequence. -/
def handle_byte (complete : Bool → List UInt8 → List (List UInt8)) (max_len : ℕ) (c : UInt8)
    (s : readline n) : Option (readline n) :=
  if c = 4 then some s
  else if c = 3 then (put s.out_buf 0 0).map fun out_buf => { s with out_buf, len := 0, pos := 0 }
  else if c = 12 then some s
  else if c = 9 then perform_tab_completion complete max_len s
  else if c = 127 ∨ c = 8 then
    if 0 < s.pos then
      (memmove s.out_buf (s.pos - 1) s.pos (size_sub (s.len + 1) s.pos)).map fun out_buf =>
        { s with out_buf, len := s.len - 1, pos := s.pos - 1 }
    else some s
  else if is_text c then
    if s.len < max_len - 1 then
      (insert_bytes s.out_buf s.len s.pos [c]).bind fun out_buf =>
        (put out_buf (s.len + 1) 0).map fun out_buf =>
          { s with out_buf, len := s.len + 1, pos := s.pos + 1 }
    else some s
  else some s

/-- The loop, on the bytes that `read` gives until there are no more. -/
def readline_loop (complete : Bool → List UInt8 → List (List UInt8))
    (history : List (List UInt8)) (max_len : ℕ) :
    List UInt8 → readline n → Option (Outcome (Buf n))
  | [], _ => some .eof
  | c :: input, s =>
    if c = 13 ∨ c = 10 then some (.line s.out_buf)
    else if c = 4 ∧ s.len = 0 then some .exit
    else if c = 27 then
      match input with
      | seq0 :: seq1 :: input =>
        (escape history max_len seq0 seq1 s).bind fun s =>
          readline_loop complete history max_len input s
      | _ => some .eof
    else
      (handle_byte complete max_len c s).bind fun s =>
        readline_loop complete history max_len input s

/-- `lsh_readline` on a terminal; `history` are the strings of the first `history_count` lines. -/
def lsh_readline (complete : Bool → List UInt8 → List (List UInt8)) (history : List (List UInt8))
    (out_buf : Buf n) (max_len : ℕ) (input : List UInt8) : Option (Outcome (Buf n)) :=
  (put out_buf 0 0).bind fun out_buf =>
    readline_loop complete history max_len input
      ⟨out_buf, 0, 0, history.length, zeros MAX_LINE_LEN⟩

/-! ## The editor -/

variable (complete : Bool → List UInt8 → List (List UInt8)) (history : List (List UInt8))
  (max_len : ℕ)

/-- The word in front of the cursor. -/
def word_before (l : Line UInt8) : List UInt8 :=
  ((l.text.take l.pos).reverse.takeWhile fun c => !ends_token c).reverse

def word_start (l : Line UInt8) : ℕ := l.pos - (word_before l).length

/-- The one match of the word is completed, with a blank behind it if it is no directory. -/
def complete_word (l : Line UInt8) : Line UInt8 :=
  if l.text = [] then l
  else
    let word := (word_before l).take 255
    match complete ((l.text.take (word_start l)).all fun c => c == 32 || c == 9) word with
    | [m] =>
      let suffix := (m.drop word.length).take 255
      if l.text.length + suffix.length + 1 < max_len then
        l.insert (suffix ++ if m.getLast? = some 47 then [] else [32])
      else l
    | _ => l

def edit_byte (c : UInt8) (e : Session UInt8) : Session UInt8 :=
  if c = 3 then { e with line := Line.typed [] }
  else if c = 9 then { e with line := complete_word complete max_len e.line }
  else if c = 127 ∨ c = 8 then { e with line := e.line.backspace }
  else if is_text c then
    if e.line.text.length < max_len - 1 then { e with line := e.line.insert [c] } else e
  else e

def edit_escape (seq0 seq1 : UInt8) (e : Session UInt8) : Session UInt8 :=
  if seq0 = 91 then
    if seq1 = 65 then e.up history
    else if seq1 = 66 then e.down history
    else if seq1 = 67 then { e with line := e.line.right }
    else if seq1 = 68 then { e with line := e.line.left }
    else if seq1 = 72 ∨ seq1 = 49 then { e with line := e.line.home }
    else if seq1 = 70 ∨ seq1 = 52 then { e with line := Line.typed e.line.text }
    else e
  else e

def edit : List UInt8 → Session UInt8 → Outcome (List UInt8)
  | [], _ => .eof
  | c :: input, e =>
    if c = 13 ∨ c = 10 then .line e.line.text
    else if c = 4 ∧ e.line.text = [] then .exit
    else if c = 27 then
      match input with
      | seq0 :: seq1 :: input => edit input (edit_escape history seq0 seq1 e)
      | _ => .eof
    else edit input (edit_byte complete max_len c e)

/-! ## Buffers -/

variable {complete history max_len}

/-- The string of the buffer is `t` now, and nothing behind its NUL has changed. -/
structure Replaced (b b' : Buf n) (t : List UInt8) : Prop where
  no_nul : 0 ∉ t
  bytes : b'.val = t ++ 0 :: b.val.drop (t.length + 1)

section Buffers

variable {b b' : Buf n} {t : List UInt8}

theorem Replaced.text (h : Replaced b b' t) : CString.text b' = t := by
  rw [CString.text, h.bytes]
  exact text_of_append_zero h.no_nul _

theorem Replaced.nul (h : Replaced b b' t) : 0 ∈ b'.val := by
  rw [h.bytes]
  exact List.mem_append_right _ List.mem_cons_self

theorem text_length_lt (hnul : 0 ∈ b.val) : (text b).length < n := by
  obtain ⟨rest, hb⟩ := text_split hnul
  have hlen := congrArg List.length hb
  rw [length_val, List.length_append, List.length_cons] at hlen
  omega

theorem Replaced.length_lt (h : Replaced b b' t) : t.length < n :=
  h.text ▸ text_length_lt h.nul

theorem Replaced.closed (h : Replaced b b' t) (hb : Closed b) : Closed b' := by
  obtain ⟨front, hfront⟩ := hb
  have hlen := Closed.length_front hfront
  have hlt := h.length_lt
  by_cases hlast : t.length + 1 = n
  · refine ⟨t, ?_⟩
    rw [h.bytes, List.drop_eq_nil_of_le (by rw [length_val]; omega)]
  · refine ⟨t ++ 0 :: front.drop (t.length + 1), ?_⟩
    rw [h.bytes, hfront, List.drop_append_of_le_length (by omega), List.append_assoc,
      List.cons_append]

/-- A string as long as it can be has its NUL in the last byte. -/
theorem closed_of_full (hnul : 0 ∈ b.val) (hfull : n ≤ (text b).length + 1) : Closed b := by
  obtain ⟨rest, hb⟩ := text_split hnul
  have hlen := congrArg List.length hb
  rw [length_val, List.length_append, List.length_cons] at hlen
  obtain rfl : rest = [] := List.length_eq_zero_iff.mp (by omega)
  exact ⟨_, hb⟩

/-- The bytes of the string. -/
theorem take_val (hnul : 0 ∈ b.val) {k : ℕ} (hk : k ≤ (text b).length) :
    b.val.take k = (text b).take k := by
  obtain ⟨rest, hb⟩ := text_split hnul
  conv_lhs => rw [hb]
  exact List.take_append_of_le_length hk

/-- The tail of the string is moved. -/
theorem move_tail (hnul : 0 ∈ b.val) (hn : n < 2 ^ 64) (dst : ℕ) {src : ℕ}
    (hsrc : src ≤ (text b).length)
    (hdst : dst + ((text b).length + 1 - src) ≤ n) :
    ∃ b', memmove b dst src (size_sub ((text b).length + 1) src) = some b'
      ∧ b'.val = b.val.take dst ++ ((text b).drop src ++ 0 ::
        b.val.drop (dst + ((text b).length + 1 - src))) := by
  obtain ⟨rest, hb⟩ := text_split hnul
  have hlt := text_length_lt hnul
  have htail : (b.val.drop src).take ((text b).length + 1 - src)
      = (text b).drop src ++ [0] := by
    conv_lhs => rw [hb]
    rw [List.drop_append_of_le_length hsrc, List.take_append, List.take_of_length_le,
      List.length_drop,
      show (text b).length + 1 - src - ((text b).length - src) = 1 by omega]
    · rfl
    · rw [List.length_drop]
      omega
  have hlen : ((text b).drop src ++ [0]).length = (text b).length + 1 - src := by
    rw [List.length_append, List.length_drop, List.length_singleton]
    omega
  obtain ⟨b', hb', hval⟩ := write_of_le b ((text b).drop src ++ [0])
    (show dst + _ ≤ n by rw [hlen]; exact hdst)
  refine ⟨b', ?_, ?_⟩
  · rw [memmove, size_sub_of_le (by omega) (by omega), if_pos (by omega), htail, hb']
  · rw [hval, hlen, List.append_assoc, List.append_assoc, List.singleton_append]

/-- The tail of the string makes room, and bytes are put there. -/
theorem insert_bytes_returns (hnul : 0 ∈ b.val) (hn : n < 2 ^ 64) {pos : ℕ}
    (hpos : pos ≤ (text b).length) {bytes : List UInt8} (hbytes : 0 ∉ bytes)
    (hfit : (text b).length + bytes.length < n) :
    ∃ b', insert_bytes b (text b).length pos bytes = some b' ∧ Replaced b b'
      ((text b).take pos ++ bytes ++ (text b).drop pos) := by
  obtain ⟨b₁, hmove, h₁⟩ := move_tail hnul hn (pos + bytes.length) hpos (by omega)
  obtain ⟨b₂, hwrite, h₂⟩ := write_of_le b₁ bytes (show pos + bytes.length ≤ n by omega)
  refine ⟨b₂, by rw [insert_bytes, hmove, Option.bind_some, hwrite], ?_, ?_⟩
  · simp only [List.mem_append]
    rintro ((h | h) | h)
    · exact zero_notMem_text b (List.mem_of_mem_take h)
    · exact hbytes h
    · exact zero_notMem_text b (List.mem_of_mem_drop h)
  · have hlen : (b.val.take (pos + bytes.length)).length = pos + bytes.length := by
      rw [List.length_take, length_val]
      omega
    have hfront : b₁.val.take pos = (text b).take pos := by
      rw [h₁, List.take_append_of_le_length (by omega), List.take_take,
        Nat.min_eq_left (Nat.le_add_right _ _), take_val hnul hpos]
    have hback : b₁.val.drop (pos + bytes.length) = (text b).drop pos ++ 0 ::
        b.val.drop (pos + bytes.length + ((text b).length + 1 - pos)) := by
      rw [h₁, List.drop_append_of_le_length hlen.ge, List.drop_of_length_le hlen.le,
        List.nil_append]
    have hall : ((text b).take pos ++ bytes ++ (text b).drop pos).length + 1
        = pos + bytes.length + ((text b).length + 1 - pos) := by
      simp only [List.length_append, List.length_take, List.length_drop]
      omega
    rw [h₂, hfront, hback, hall]
    simp only [List.append_assoc]

/-- What stands in front of the cursor is moved over. -/
theorem delete_returns (hnul : 0 ∈ b.val) (hn : n < 2 ^ 64) {pos : ℕ} (hpos : 0 < pos)
    (hle : pos ≤ (text b).length) :
    ∃ b', memmove b (pos - 1) pos (size_sub ((text b).length + 1) pos) = some b'
      ∧ Replaced b b' ((text b).take (pos - 1) ++ (text b).drop pos) := by
  have hlt := text_length_lt hnul
  obtain ⟨b', hmove, h'⟩ := move_tail hnul hn (pos - 1) hle (by omega)
  refine ⟨b', hmove, ?_, ?_⟩
  · intro h
    rcases List.mem_append.mp h with h | h
    · exact zero_notMem_text b (List.mem_of_mem_take h)
    · exact zero_notMem_text b (List.mem_of_mem_drop h)
  · have hall : ((text b).take (pos - 1) ++ (text b).drop pos).length + 1
        = pos - 1 + ((text b).length + 1 - pos) := by
      simp only [List.length_append, List.length_take, List.length_drop]
      omega
    rw [h', take_val hnul (by omega), hall, List.append_assoc]

theorem put_nul_returns (hn : 0 < n) : ∃ b', put b 0 0 = some b' ∧ Replaced b b' [] := by
  obtain ⟨b', hput, h'⟩ := write_of_le b [0] (show 0 + _ ≤ n from hn)
  refine ⟨b', hput, List.not_mem_nil, ?_⟩
  rw [h', List.take_zero]
  rfl

/-- The NUL is written where it stands already. -/
theorem put_end_returns (hnul : 0 ∈ b.val) :
    put b (text b).length 0 = some b := by
  obtain ⟨rest, hb⟩ := text_split hnul
  obtain ⟨b', hput, h'⟩ := write_of_le b [0] (text_length_lt hnul)
  have hsame : b' = b := by
    apply Subtype.ext
    rw [h', take_val hnul le_rfl, List.take_length]
    conv_lhs => rw [hb]
    conv_rhs => rw [hb]
    simp
  rw [put, hput, hsame]

/-- A copy that leaves the last byte alone. -/
theorem strncpy_returns {line : List UInt8} (hline : 0 ∉ line) (hlt : line.length < n)
    (hroom : Closed b ∨ line.length + 1 < n) :
    ∃ b', strncpy b line (n - 1) = some b' ∧ text b' = line ∧ 0 ∈ b'.val
      ∧ (Closed b → Closed b') := by
  have hcopied : (line.take (n - 1) ++ List.replicate (n - 1 - line.length) 0).length = n - 1 := by
    rw [List.length_append, List.length_take, List.length_replicate]
    omega
  obtain ⟨b', hcopy, hval⟩ := write_of_le b _ (show 0 + _ ≤ n by rw [hcopied]; omega)
  have hclosed : Closed b → text b' = line ∧ Closed b' := by
    intro hb
    obtain ⟨b'', hcopy', hb'', htext⟩ := hb.strncpy line
    obtain rfl : b' = b'' := Option.some.inj (hcopy.symm.trans hcopy')
    exact ⟨(htext hline).trans (List.take_of_length_le (by omega)), hb''⟩
  refine ⟨b', hcopy, ?_⟩
  rcases hroom with hb | hshort
  · exact ⟨(hclosed hb).1, (hclosed hb).2.zero_mem, fun _ => (hclosed hb).2⟩
  · obtain ⟨k, hk⟩ : ∃ k, n - 1 - line.length = k + 1 := ⟨n - 2 - line.length, by omega⟩
    have hsplit : b'.val = line ++ 0 :: (List.replicate k 0 ++ b.val.drop (n - 1)) := by
      rw [hval, hcopied, List.take_zero, List.nil_append, Nat.zero_add,
        List.take_of_length_le (by omega), hk, List.replicate_succ, List.append_assoc,
        List.cons_append]
    refine ⟨?_, ?_, fun hb => (hclosed hb).2⟩
    · rw [text, hsplit]
      exact text_of_append_zero hline _
    · rw [hsplit]
      exact List.mem_append_right _ List.mem_cons_self

/-- The word in front of the cursor starts behind the last character that ends a word. -/
theorem token_start_eq (hnul : 0 ∈ b.val) {k : ℕ} (hk : k ≤ (text b).length) :
    token_start b k = some (k -
      (((text b).take k).reverse.takeWhile fun c => !ends_token c).length) := by
  obtain ⟨rest, hb⟩ := text_split hnul
  induction k with
  | zero => rfl
  | succ k ih =>
    have hlt : k < (text b).length := hk
    have hbyte : b.val[k]? = some (text b)[k] := by
      conv_lhs => rw [hb]
      rw [List.getElem?_append_left hlt, List.getElem?_eq_getElem hlt]
    rw [token_start, hbyte, Option.bind_some, List.take_succ_eq_append_getElem hlt,
      List.reverse_append, List.reverse_singleton, List.singleton_append, List.takeWhile_cons]
    cases hends : ends_token (text b)[k] with
    | true => simp
    | false =>
      rw [if_neg Bool.false_ne_true, ih (Nat.le_of_lt hlt)]
      simp

end Buffers

/-! ## The line and its buffer -/

/-- The buffers hold what the editor has. Where the last byte of `out_buf` is not NUL, no line that
may be called up reaches it. -/
structure Shows (history : List (List UInt8)) (s : readline n) (e : Session UInt8) : Prop where
  text : CString.text s.out_buf = e.line.text
  nul : 0 ∈ s.out_buf.val
  len : s.len = e.line.text.length
  pos : s.pos = e.line.pos
  index : s.hist_idx = e.at_index
  index_le : e.at_index ≤ history.length
  aside : CString.text s.temp_backup = e.aside
  aside_lt : e.aside.length < n
  backup : Closed s.temp_backup
  room : Closed s.out_buf ∨ ∀ line ∈ e.aside :: history, line.length + 1 < n

/-- What is asked of the surroundings: the sizes of the buffers, strings for the history, and
matches that go on from the word. -/
structure Sane (complete : Bool → List UInt8 → List (List UInt8)) (history : List (List UInt8))
    (n : ℕ) : Prop where
  pos : 0 < n
  le : n ≤ MAX_LINE_LEN
  no_nul : ∀ line ∈ history, 0 ∉ line
  length_lt : ∀ line ∈ history, line.length < n
  completes : ∀ b word m, complete b word = [m] → 0 ∉ m ∧ m ≠ [] ∧ word.length ≤ m.length

section Steps

variable {s : readline n} {e : Session UInt8}

/-- What comes of a key shows what the editor comes to. -/
def Follows (history : List (List UInt8)) (run : Option (readline n)) (e : Session UInt8) : Prop :=
  ∃ s', run = some s' ∧ Shows history s' e

theorem Shows.follows (h : Shows history s e) : Follows history (some s) e :=
  ⟨s, rfl, h⟩

/-- A question that both ask. -/
theorem Follows.ite {p : Prop} [Decidable p] {run run' : Option (readline n)}
    {e e' : Session UInt8} (hthen : p → Follows history run e)
    (helse : ¬p → Follows history run' e') :
    Follows history (if p then run else run') (if p then e else e') := by
  by_cases hp : p
  · rw [if_pos hp, if_pos hp]
    exact hthen hp
  · rw [if_neg hp, if_neg hp]
    exact helse hp

theorem Sane.lt (hsane : Sane complete history n) : n < 2 ^ 64 :=
  hsane.le.trans_lt (by decide)

theorem Shows.length_lt (h : Shows history s e) : e.line.text.length < n := by
  have hlt := text_length_lt h.nul
  rwa [h.text] at hlt

/-- The line is changed in the buffer. -/
theorem Shows.replaced (h : Shows history s e) {b : Buf n} {l : Line UInt8}
    (hb : Replaced s.out_buf b l.text) {len pos : ℕ} (hlen : len = l.text.length)
    (hpos : pos = l.pos) :
    Shows history { s with out_buf := b, len, pos } { e with line := l } :=
  ⟨hb.text, hb.nul, hlen, hpos, h.index, h.index_le, h.aside, h.aside_lt, h.backup,
    h.room.imp_left hb.closed⟩

/-- The cursor is moved, or stays where it would come to. -/
theorem Shows.cursor (h : Shows history s e) (l : Line UInt8) (hl : l.text = e.line.text) {p : Prop}
    [Decidable p] {pos : ℕ} (hpos : (if p then pos else s.pos) = l.pos) :
    Follows history (some (if p then { s with pos } else s)) { e with line := l } := by
  have hsame : (if p then { s with pos } else s) = { s with pos := l.pos } := by
    rw [← hpos]
    split <;> rfl
  exact ⟨_, congrArg some hsame, h.text.trans hl.symm, h.nul,
    h.len.trans (congrArg List.length hl.symm), rfl, h.index, h.index_le, h.aside, h.aside_lt,
    h.backup, h.room⟩

theorem insert_shows (hsane : Sane complete history n) (h : Shows history s e)
    (bytes : List UInt8) (hbytes : 0 ∉ bytes) (hfit : e.line.text.length + bytes.length < n) :
    ∃ b, insert_bytes s.out_buf s.len s.pos bytes = some b
      ∧ Replaced s.out_buf b (e.line.insert bytes).text := by
  have hpos := e.line.pos_le
  rw [← h.text] at hpos hfit
  obtain ⟨b, hinsert, hb⟩ := insert_bytes_returns h.nul hsane.lt hpos hbytes hfit
  rw [h.text] at hinsert hb
  exact ⟨b, by rw [h.len, h.pos, hinsert], hb⟩

theorem c_str_zero {b : Buf n} (hnul : 0 ∈ b.val) : c_str b 0 = some (text b) := by
  rw [c_str, List.drop_zero, if_pos hnul]
  rfl

/-- A line that is called up: it fits, or the last byte of the buffer is NUL. -/
theorem call_up_shows (hsane : Sane complete history n) (h : Shows history s e)
    {line : List UInt8} (hmem : line ∈ e.aside :: history) {i : ℕ} (hi : i ≤ history.length) :
    Follows history (call_up n line { s with hist_idx := i }) ⟨Line.typed line, i, e.aside⟩ := by
  have hline : 0 ∉ line ∧ line.length < n := by
    rcases List.mem_cons.mp hmem with rfl | hhist
    · exact ⟨h.aside ▸ zero_notMem_text s.temp_backup, h.aside_lt⟩
    · exact ⟨hsane.no_nul line hhist, hsane.length_lt line hhist⟩
  obtain ⟨b, hcopy, htext, hnul, hclosed⟩ :=
    strncpy_returns hline.1 hline.2 (h.room.imp_right fun hall => hall line hmem)
  have hstrlen : strlen b = some line.length := by
    rw [strlen, c_str_zero hnul, htext]
    rfl
  refine ⟨⟨b, line.length, line.length, i, s.temp_backup⟩, ?_, ?_⟩
  · rw [call_up]
    dsimp only
    rw [hcopy, Option.bind_some, hstrlen, Option.map_some]
  · exact ⟨htext, hnul, rfl, rfl, rfl, hi, h.aside, h.aside_lt, h.backup, h.room.imp_left hclosed⟩

/-- The line that is being typed is put aside. -/
theorem put_aside_shows (hsane : Sane complete history n) (h : Shows history s e) :
    ∃ backup, strncpy s.temp_backup e.line.text (MAX_LINE_LEN - 1) = some backup
      ∧ Shows history { s with temp_backup := backup } { e with aside := e.line.text } := by
  have hlt := h.length_lt
  have hle := hsane.le
  have hno : 0 ∉ e.line.text := h.text ▸ zero_notMem_text s.out_buf
  obtain ⟨backup, hcopy, hbackup, htext⟩ := h.backup.strncpy e.line.text
  refine ⟨backup, hcopy, ?_⟩
  have haside : text backup = e.line.text := by
    rw [htext hno, List.take_of_length_le (by omega)]
  refine ⟨h.text, h.nul, h.len, h.pos, h.index, h.index_le, haside, hlt, hbackup, ?_⟩
  rcases h.room with hclosed | hall
  · exact Or.inl hclosed
  · by_cases hfull : n ≤ e.line.text.length + 1
    · exact Or.inl (closed_of_full h.nul (h.text ▸ hfull))
    · right
      intro line hline
      rcases List.mem_cons.mp hline with rfl | hhist
      · exact Nat.lt_of_not_le hfull
      · exact hall line (List.mem_cons_of_mem _ hhist)

theorem getD_entry (history : List (List UInt8)) {i : ℕ} (hi : i < history.length) :
    history[i]? = some (history.getD i []) ∧ history.getD i [] ∈ history := by
  rw [List.getD_eq_getElem?_getD, List.getElem?_eq_getElem hi, Option.getD_some]
  exact ⟨rfl, List.getElem_mem hi⟩

theorem arrow_up_shows (hsane : Sane complete history n) (h : Shows history s e) :
    Follows history (arrow_up history n s) (e.up history) := by
  have hle := h.index_le
  unfold arrow_up Session.up
  rw [h.index]
  by_cases hup : 0 < e.at_index
  · obtain ⟨hentry, hmem⟩ := getD_entry history (show e.at_index - 1 < _ by omega)
    rw [if_pos ⟨by omega, hup⟩, if_pos hup]
    by_cases hlast : e.at_index = history.length
    · obtain ⟨backup, hcopy, haside⟩ := put_aside_shows hsane h
      rw [if_pos hlast, if_pos hlast, c_str_zero h.nul, Option.bind_some, h.text, hcopy,
        Option.map_some, Option.bind_some]
      dsimp only
      rw [hentry, Option.bind_some]
      exact call_up_shows hsane haside (List.mem_cons_of_mem _ hmem) (by omega)
    · rw [if_neg hlast, if_neg hlast, Option.bind_some, h.index, hentry, Option.bind_some]
      exact call_up_shows hsane h (List.mem_cons_of_mem _ hmem) (by omega)
  · rw [if_neg fun hand => hup hand.2, if_neg hup]
    exact h.follows

theorem arrow_down_shows (hsane : Sane complete history n) (h : Shows history s e) :
    Follows history (arrow_down history n s) (e.down history) := by
  unfold arrow_down Session.down
  rw [h.index]
  refine .ite (fun hdown => ?_) fun _ => h.follows
  by_cases hlast : e.at_index + 1 = history.length
  · rw [if_pos hlast, if_pos hlast, c_str_zero h.backup.zero_mem, Option.bind_some, h.aside]
    exact call_up_shows hsane h List.mem_cons_self hdown
  · obtain ⟨hentry, hmem⟩ := getD_entry history (show e.at_index + 1 < _ by omega)
    rw [if_neg hlast, if_neg hlast, hentry, Option.bind_some]
    exact call_up_shows hsane h (List.mem_cons_of_mem _ hmem) hdown

theorem escape_shows (hsane : Sane complete history n) (h : Shows history s e)
    (seq0 seq1 : UInt8) :
    Follows history (escape history n seq0 seq1 s) (edit_escape history seq0 seq1 e) := by
  have hpos := h.pos
  have hlen := h.len
  have hle := e.line.pos_le
  unfold escape edit_escape
  refine .ite (fun _ => ?_) fun _ => h.follows
  refine .ite (fun _ => arrow_up_shows hsane h) fun _ => ?_
  refine .ite (fun _ => arrow_down_shows hsane h) fun _ => ?_
  refine .ite (fun _ => ?_) fun _ => ?_
  · unfold Line.right
    by_cases hmore : e.line.pos < e.line.text.length
    · rw [dif_pos hmore]
      exact h.cursor ⟨_, _, hmore⟩ rfl (by rw [if_pos (by omega), hpos])
    · rw [dif_neg hmore]
      exact h.cursor e.line rfl (by rw [if_neg (by omega), hpos])
  refine .ite (fun _ => ?_) fun _ => ?_
  · exact h.cursor e.line.left rfl (by unfold Line.left; dsimp only; split <;> omega)
  refine .ite (fun _ => ?_) fun _ => ?_
  · exact h.cursor e.line.home rfl (by unfold Line.home; dsimp only; split <;> omega)
  refine .ite (fun _ => ?_) fun _ => h.follows
  exact h.cursor (Line.typed e.line.text) rfl
    (by unfold Line.typed; dsimp only; split <;> omega)

theorem apply_match_shows (hsane : Sane complete history n) (h : Shows history s e) {plen : ℕ}
    {m : List UInt8} (hm : 0 ∉ m ∧ m ≠ [] ∧ plen ≤ m.length) :
    Follows history (apply_match n plen m s)
      { e with line := if e.line.text.length + ((m.drop plen).take 255).length + 1 < n then
          e.line.insert ((m.drop plen).take 255 ++ if m.getLast? = some 47 then [] else [32])
        else e.line } := by
  obtain ⟨hno, hne, hle⟩ := hm
  have hsuffix : 0 ∉ (m.drop plen).take 255 := fun hmem =>
    hno (List.mem_of_mem_drop (List.mem_of_mem_take hmem))
  unfold apply_match CText.snprintf
  rw [if_neg (by omega), h.len]
  dsimp only
  rw [show 256 - 1 = 255 from rfl]
  generalize (m.drop plen).take 255 = suffix at hsuffix
  by_cases hfit : e.line.text.length + suffix.length + 1 < n
  · rw [if_pos hfit, if_pos hfit]
    obtain ⟨b, hinsert, hb⟩ := insert_shows hsane h suffix hsuffix (by omega)
    have h₁ : Shows history
        { s with out_buf := b, len := e.line.text.length + suffix.length,
                 pos := s.pos + suffix.length } { e with line := e.line.insert suffix } :=
      h.replaced hb (e.line.insert_length suffix).symm (congrArg (· + suffix.length) h.pos)
    rw [h.len] at hinsert
    rw [hinsert, Option.bind_some, List.getLast?_eq_getElem?]
    have hlast : m.length - 1 < m.length := Nat.sub_one_lt (List.length_pos_iff.mpr hne).ne'
    rw [List.getElem?_eq_getElem hlast, Option.bind_some]
    by_cases hdir : m[m.length - 1] = 47
    · rw [if_neg (not_not.mpr hdir), if_pos (congrArg some hdir), List.append_nil]
      exact ⟨_, rfl, h₁⟩
    · have hblank : (e.line.insert suffix).text.length + [(32 : UInt8)].length < n := by
        rw [e.line.insert_length, List.length_singleton]
        omega
      obtain ⟨b', hinsert', hb'⟩ := insert_shows hsane h₁ [32] (by decide) hblank
      rw [if_pos hdir, if_neg fun heq => hdir (Option.some.inj heq), ← e.line.insert_insert,
        hinsert', Option.map_some]
      refine ⟨_, rfl, h₁.replaced hb' ?_ ?_⟩
      · rw [Line.insert_length, Line.insert_length]
        rfl
      · rw [h.pos]
        rfl
  · rw [if_neg hfit, if_neg hfit]
    exact h.follows

theorem word_before_length_le (l : Line UInt8) : (word_before l).length ≤ l.pos := by
  have hlen := (List.takeWhile_sublist (fun c => !ends_token c)
    (l := (l.text.take l.pos).reverse)).length_le
  rw [List.length_reverse, List.length_take] at hlen
  rw [word_before, List.length_reverse]
  omega

/-- The word stands at the end of what is in front of the cursor. -/
theorem drop_word_before (l : Line UInt8) :
    (l.text.take l.pos).drop (word_start l) = word_before l := by
  have hsplit := List.takeWhile_append_dropWhile (p := fun c => !ends_token c)
    (l := (l.text.take l.pos).reverse)
  have hfront := congrArg List.reverse hsplit
  rw [List.reverse_append, List.reverse_reverse] at hfront
  have hlen := congrArg List.length hfront
  rw [List.length_append, List.length_take, Nat.min_eq_left l.pos_le] at hlen
  rw [← hfront]
  apply List.drop_left'
  rw [word_start, word_before]
  omega

theorem tab_shows (hsane : Sane complete history n) (h : Shows history s e) :
    Follows history (perform_tab_completion complete n s)
      { e with line := complete_word complete n e.line } := by
  have hpos := e.line.pos_le
  unfold perform_tab_completion complete_word
  by_cases hempty : e.line.text = []
  · have hzero : s.pos = 0 ∧ s.len = 0 := by
      rw [h.pos, h.len]
      rw [hempty] at hpos ⊢
      exact ⟨Nat.le_zero.mp hpos, rfl⟩
    rw [if_pos hzero, if_pos hempty]
    exact h.follows
  · have hsome : ¬(s.pos = 0 ∧ s.len = 0) := by
      rintro ⟨-, hlen⟩
      exact hempty (List.length_eq_zero_iff.mp (h.len.symm.trans hlen))
    have hword : e.line.pos - word_start e.line = (word_before e.line).length :=
      Nat.sub_sub_self (word_before_length_le e.line)
    have hle : word_start e.line ≤ e.line.pos := Nat.sub_le _ _
    have hstart : token_start s.out_buf s.pos = some (word_start e.line) := by
      rw [token_start_eq h.nul (by rw [h.text, h.pos]; exact hpos), h.text, h.pos, word_start,
        word_before, List.length_reverse]
    have hfront : s.out_buf.val.take (word_start e.line)
        = e.line.text.take (word_start e.line) := by
      rw [take_val h.nul (by rw [h.text]; omega), h.text]
    have hplen : ((word_before e.line).take 255).length
        = if 256 ≤ (word_before e.line).length then 255 else (word_before e.line).length := by
      rw [List.length_take]
      split <;> omega
    have hback : (s.out_buf.val.drop (word_start e.line)).take
        ((word_before e.line).take 255).length = (word_before e.line).take 255 := by
      have hdrop := drop_word_before e.line
      rw [← h.text, ← take_val h.nul (by rw [h.text]; exact hpos), List.drop_take, hword] at hdrop
      conv_rhs => rw [← hdrop]
      rw [List.take_take, List.length_take]
    rw [if_neg hsome, if_neg hempty, hstart, Option.bind_some, h.pos]
    dsimp only
    rw [hword, ← hplen, hfront, hback]
    generalize (e.line.text.take (word_start e.line)).all (fun c => c == 32 || c == 9) = is_command
    split
    · next m hm => exact apply_match_shows hsane h (hsane.completes _ _ m hm)
    · exact h.follows

theorem handle_byte_shows (hsane : Sane complete history n) (h : Shows history s e) (c : UInt8)
    (hc : c ≠ 0) : Follows history (handle_byte complete n c s) (edit_byte complete n c e) := by
  have hpos := h.pos
  have hlen := h.len
  have hle := e.line.pos_le
  unfold handle_byte edit_byte
  by_cases heot : c = 4
  · subst heot
    exact h.follows
  rw [if_neg heot]
  refine .ite (fun _ => ?_) fun _ => ?_
  · obtain ⟨b, hput, hb⟩ := put_nul_returns (b := s.out_buf) hsane.pos
    rw [hput, Option.map_some]
    exact ⟨_, rfl, h.replaced (l := Line.typed []) hb rfl rfl⟩
  by_cases hclear : c = 12
  · subst hclear
    exact h.follows
  rw [if_neg hclear]
  refine .ite (fun _ => tab_shows hsane h) fun _ => ?_
  refine .ite (fun _ => ?_) fun _ => ?_
  · by_cases hmore : 0 < s.pos
    · rw [← h.text] at hle
      obtain ⟨b, hmove, hb⟩ := delete_returns h.nul hsane.lt (show 0 < e.line.pos by omega) hle
      rw [h.text] at hmove hb
      rw [if_pos hmore, hlen, hpos, hmove, Option.map_some]
      refine ⟨_, rfl, h.replaced (l := e.line.backspace) hb ?_ rfl⟩
      have hle := e.line.pos_le
      unfold Line.backspace
      simp only [List.length_append, List.length_take, List.length_drop]
      omega
    · -- nothing stands in front of the cursor
      have hzero : e.line.pos = 0 := by omega
      have hsame : e.line.backspace = e.line := by
        apply Line.ext
        · simp only [Line.backspace, hzero]
          rfl
        · simp only [Line.backspace, hzero]
      rw [if_neg hmore, hsame]
      exact h.follows
  rw [hlen]
  refine .ite (fun _ => .ite (fun hfit => ?_) fun _ => h.follows) fun _ => h.follows
  obtain ⟨b, hinsert, hb⟩ := insert_shows hsane h [c]
    (fun hmem => hc (List.mem_singleton.mp hmem).symm)
    (by rw [List.length_singleton]; omega)
  have hend : put b (e.line.text.length + 1) 0 = some b := by
    have hput := put_end_returns hb.nul
    rwa [hb.text, e.line.insert_length] at hput
  rw [hlen] at hinsert
  rw [hinsert, Option.bind_some, hend, Option.map_some]
  refine ⟨_, rfl, h.replaced hb ?_ ?_⟩
  · rw [e.line.insert_length]
    rfl
  · exact congrArg (· + 1) hpos

end Steps

/-! ## The loop -/

/-- An outcome, with the string of the buffer in the place of the buffer. -/
def Outcome.shown : Outcome (Buf n) → Outcome (List UInt8)
  | .eof => .eof
  | .exit => .exit
  | .line b => .line (text b)

theorem handle_byte_nul (s : readline n) : handle_byte complete max_len 0 s = some s := rfl

theorem edit_byte_nul (e : Session UInt8) : edit_byte complete max_len 0 e = e := rfl

/-- The loop and the editor take the same bytes; a sequence behind an escape takes two more. -/
theorem readline_loop_edits (hsane : Sane complete history n) :
    ∀ (input : List UInt8) {s : readline n} {e : Session UInt8}, Shows history s e →
      ∃ o, readline_loop complete history n input s = some o
        ∧ o.shown = edit complete history n input e
  | [], _, _, _ => ⟨.eof, rfl, rfl⟩
  | c :: input, s, e, h => by
    have hempty : (c = 4 ∧ s.len = 0) ↔ (c = 4 ∧ e.line.text = []) := by
      rw [h.len, List.length_eq_zero_iff]
    unfold readline_loop edit
    by_cases henter : c = 13 ∨ c = 10
    · rw [if_pos henter, if_pos henter]
      exact ⟨_, rfl, congrArg Outcome.line h.text⟩
    rw [if_neg henter, if_neg henter]
    by_cases hexit : c = 4 ∧ e.line.text = []
    · rw [if_pos (hempty.mpr hexit), if_pos hexit]
      exact ⟨_, rfl, rfl⟩
    rw [if_neg (hempty.not.mpr hexit), if_neg hexit]
    by_cases hescape : c = 27
    · rw [if_pos hescape, if_pos hescape]
      match input with
      | [] => exact ⟨_, rfl, rfl⟩
      | [_] => exact ⟨_, rfl, rfl⟩
      | seq0 :: seq1 :: input =>
        obtain ⟨s', hstep, h'⟩ := escape_shows hsane h seq0 seq1
        dsimp only
        rw [hstep, Option.bind_some]
        exact readline_loop_edits hsane input h'
    · rw [if_neg hescape, if_neg hescape]
      by_cases hc : c = 0
      · subst hc
        rw [handle_byte_nul, edit_byte_nul, Option.bind_some]
        exact readline_loop_edits hsane input h
      · obtain ⟨s', hstep, h'⟩ := handle_byte_shows hsane h c hc
        rw [hstep, Option.bind_some]
        exact readline_loop_edits hsane input h'

/-- The buffers at the start. -/
theorem start_shows (hsane : Sane complete history n) {out_buf b : Buf n}
    (hb : Replaced out_buf b [])
    (hroom : Closed out_buf ∨ ∀ line ∈ history, line.length + 1 < n) :
    Shows history ⟨b, 0, 0, history.length, zeros MAX_LINE_LEN⟩ (Session.start history) := by
  refine ⟨hb.text, hb.nul, rfl, rfl, rfl, le_rfl, rfl, hsane.pos, closed_zeros 2047, ?_⟩
  by_cases hone : 1 < n
  · refine hroom.imp hb.closed fun hall line hline => ?_
    rcases List.mem_cons.mp hline with rfl | hhist
    · exact hone
    · exact hall line hhist
  · exact Or.inl (closed_of_full hb.nul (by omega))

end SysInC.LshReadline
