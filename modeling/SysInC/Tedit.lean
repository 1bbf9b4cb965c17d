/-
The text editor (`src/tedit/tedit.c`): the lines, the undo ring, the editing operations, the cursor
keys and the prompts.

The state is the source's static variables; rendering, the web server and the file name play no
part. Lines are buffers of bytes, so what stands behind the NUL of a line is part of the state, and
every access that leaves an array is `none`.
-/
import SysInC.CString
import Mathlib.Data.List.DropRight

set_option autoImplicit false

namespace SysInC.Tedit

open SysInC.PartialRun SysInC.CString

abbrev MAX_LINES : ℕ := 4000

instance : NeZero MAX_LINES := ⟨by decide⟩
abbrev MAX_LINE_LEN : ℕ := 1024
abbrev MAX_UNDO : ℕ := 32

/-- `char lines[MAX_LINES][MAX_LINE_LEN]` -/
abbrev Lines := Fin MAX_LINES → Buf MAX_LINE_LEN

structure UndoState where
  lines : Lines
  line_count : ℕ
  cur_line : ℕ
  cur_col : ℕ

structure Editor where
  lines : Lines
  line_count : ℕ
  cur_line : ℕ
  cur_col : ℕ
  undo_history : Fin MAX_UNDO → UndoState
  undo_head : ℕ
  undo_count : ℕ
  is_modified : Bool
  notify_status : String

/-! ## Undo -/

/-- `strncpy(dst[i], src[i], MAX_LINE_LEN - 1);` -/
def copy_line (src dst : Lines) (i : ℕ) : Option Lines :=
  (peek src i).bind fun s =>
  (peek dst i).bind fun d =>
  (strncpy d (text s) (MAX_LINE_LEN - 1)).bind fun d =>
  poke dst i d

def copy_lines (src dst : Lines) (line_count : ℕ) : Option Lines :=
  (List.range line_count).foldlM (copy_line src) dst

def save_undo_state (e : Editor) : Option Editor :=
  (peek e.undo_history e.undo_head).bind fun st =>
  (copy_lines e.lines st.lines e.line_count).bind fun lines =>
  (poke e.undo_history e.undo_head ⟨lines, e.line_count, e.cur_line, e.cur_col⟩).bind
    fun undo_history =>
  some { e with
    undo_history := undo_history
    undo_head := (e.undo_head + 1) % MAX_UNDO
    undo_count := if e.undo_count < MAX_UNDO then e.undo_count + 1 else e.undo_count }

def perform_undo (e : Editor) : Option Editor :=
  if e.undo_count = 0 then some { e with notify_status := "[✖ Nada para desfazer]" }
  else
    let undo_head := (e.undo_head + MAX_UNDO - 1) % MAX_UNDO
    (peek e.undo_history undo_head).bind fun st =>
    (copy_lines st.lines e.lines st.line_count).bind fun lines =>
    some { e with
      lines := lines
      line_count := st.line_count
      cur_line := st.cur_line
      cur_col := st.cur_col
      undo_head := undo_head
      undo_count := e.undo_count - 1
      is_modified := true
      notify_status := "[✔ Desfeito (Undo)]" }

/-! ## Editing -/

/-- `strcpy(lines[dst], lines[src]);` -/
def move_line (lines : Lines) (dst src : ℕ) : Option Lines :=
  (peek lines src).bind fun s =>
  (c_str s 0).bind fun s =>
  (peek lines dst).bind fun d =>
  (strcpy d s).bind fun d =>
  poke lines dst d

/-- `for (i = line_count; i > cur_line + 1; i--) strcpy(lines[i], lines[i - 1]);` -/
def open_line (lines : Lines) (line_count cur_line : ℕ) : Option Lines :=
  (List.range' (cur_line + 2) (line_count - (cur_line + 1))).reverse.foldlM
    (fun lines i => move_line lines i (i - 1)) lines

/-- `for (i = cur_line; i < line_count - 1; i++) strcpy(lines[i], lines[i + 1]);` -/
def close_line (lines : Lines) (line_count cur_line : ℕ) : Option Lines :=
  (List.range' cur_line (line_count - 1 - cur_line)).foldlM
    (fun lines i => move_line lines i (i + 1)) lines

def insert_char (c : UInt8) (e : Editor) : Option Editor :=
  (peek e.lines e.cur_line).bind fun line =>
  (strlen line).bind fun len =>
  if len < MAX_LINE_LEN - 2 then
    (save_undo_state e).bind fun e =>
    (memmove line (e.cur_col + 1) e.cur_col (size_sub (len + 1) e.cur_col)).bind fun line =>
    (put line e.cur_col c).bind fun line =>
    (poke e.lines e.cur_line line).bind fun lines =>
    some { e with lines := lines, cur_col := e.cur_col + 1, is_modified := true }
  else some e

def is_blank (c : UInt8) : Bool := c == 32 || c == 9

/-- The blanks in front of a line, as many as `indent` takes. -/
def indent_of (prev : Buf MAX_LINE_LEN) : List UInt8 :=
  (prev.val.takeWhile is_blank).take (64 - 8)

/-- `{`, `:`, `(` and `[` -/
def opens_block (c : UInt8) : Bool := c == 123 || c == 58 || c == 40 || c == 91

def insert_newline_smart (e : Editor) : Option Editor :=
  if MAX_LINES - 1 ≤ e.line_count then some e
  else
    (save_undo_state e).bind fun e =>
    (peek e.lines e.cur_line).bind fun prev =>
    let indent := indent_of prev
    (if 0 < e.cur_col then
        (prev.val[e.cur_col - 1]?).map fun last_c => if opens_block last_c then 4 else 0
      else some 0).bind fun add_extra =>
    (open_line e.lines e.line_count e.cur_line).bind fun lines =>
    (peek lines e.cur_line).bind fun line =>
    (c_str line e.cur_col).bind fun rest =>
    -- `snprintf` cuts the new line at the size of its buffer
    let new_line_buf := (indent ++ List.replicate add_extra 32 ++ rest).take (MAX_LINE_LEN - 1)
    (put line e.cur_col 0).bind fun line =>
    (poke lines e.cur_line line).bind fun lines =>
    (peek lines (e.cur_line + 1)).bind fun next =>
    (strncpy next new_line_buf (MAX_LINE_LEN - 1)).bind fun next =>
    (poke lines (e.cur_line + 1) next).bind fun lines =>
    some { e with
      lines := lines
      line_count := e.line_count + 1
      cur_line := e.cur_line + 1
      cur_col := indent.length + add_extra
      is_modified := true }

def delete_char (e : Editor) : Option Editor :=
  if 0 < e.cur_col then
    (save_undo_state e).bind fun e =>
    (peek e.lines e.cur_line).bind fun line =>
    (strlen line).bind fun len =>
    (memmove line (e.cur_col - 1) e.cur_col (size_sub (len + 1) e.cur_col)).bind fun line =>
    (poke e.lines e.cur_line line).bind fun lines =>
    some { e with lines := lines, cur_col := e.cur_col - 1, is_modified := true }
  else if 0 < e.cur_line then
    (save_undo_state e).bind fun e =>
    (peek e.lines (e.cur_line - 1)).bind fun prev =>
    (strlen prev).bind fun prev_len =>
    (peek e.lines e.cur_line).bind fun cur =>
    (c_str cur 0).bind fun cur =>
    if prev_len + cur.length < MAX_LINE_LEN - 2 then
      (strcat prev cur).bind fun prev =>
      (poke e.lines (e.cur_line - 1) prev).bind fun lines =>
      (close_line lines e.line_count e.cur_line).bind fun lines =>
      some { e with
        lines := lines
        line_count := e.line_count - 1
        cur_line := e.cur_line - 1
        cur_col := prev_len
        is_modified := true }
    else some e
  else some e

def duplicate_current_line (e : Editor) : Option Editor :=
  if MAX_LINES - 1 ≤ e.line_count then some e
  else
    (save_undo_state e).bind fun e =>
    (open_line e.lines e.line_count e.cur_line).bind fun lines =>
    (move_line lines (e.cur_line + 1) e.cur_line).bind fun lines =>
    some { e with
      lines := lines
      line_count := e.line_count + 1
      cur_line := e.cur_line + 1
      is_modified := true
      notify_status := "[✔ Linha duplicada]" }

/-- What `delete_current_line` does to the lines, in front of the cursor's last check. -/
def remove_line (e : Editor) : Option Editor :=
  if e.line_count = 1 then
    (peek e.lines 0).bind fun line =>
    (put line 0 0).bind fun line =>
    (poke e.lines 0 line).bind fun lines =>
    some { e with lines := lines, cur_col := 0 }
  else
    (close_line e.lines e.line_count e.cur_line).bind fun lines =>
    some { e with
      lines := lines
      line_count := e.line_count - 1
      cur_line := if e.line_count - 1 ≤ e.cur_line then e.line_count - 1 - 1 else e.cur_line }

def delete_current_line (e : Editor) : Option Editor :=
  (save_undo_state e).bind fun e =>
  (remove_line e).bind fun e =>
  (peek e.lines e.cur_line).bind fun line =>
  (strlen line).bind fun l =>
  some { e with
    cur_col := if l < e.cur_col then l else e.cur_col
    is_modified := true
    notify_status := "[✔ Linha deletada]" }

/-! ## Prompts -/

/-- The index of the first occurrence. -/
def strstr (find : List UInt8) : List UInt8 → Option ℕ
  | [] => if find = [] then some 0 else none
  | c :: s => if find.isPrefixOf (c :: s) then some 0 else (strstr find s).map (· + 1)

def tolower (c : UInt8) : UInt8 := if 65 ≤ c ∧ c ≤ 90 then c + 32 else c

def strcasestr (query s : List UInt8) : Option ℕ := strstr (query.map tolower) (s.map tolower)

def isprint (c : UInt8) : Bool := 32 ≤ c && c ≤ 126

def isdigit (c : UInt8) : Bool := 48 ≤ c && c ≤ 57

/-- The reading loop that all prompts share: what is typed in front of Enter, and the keys behind
it. `none` is the way out of the prompt, by Escape, Control-C or the end of the input. -/
def read_prompt (accept : UInt8 → Bool) (room : ℕ) (s : List UInt8) :
    List UInt8 → Option (List UInt8 × List UInt8)
  | [] => none
  | c :: keys =>
      if c = 27 ∨ c = 3 then none
      else if c = 13 ∨ c = 10 then some (s, keys)
      else if c = 127 ∨ c = 8 then read_prompt accept room s.dropLast keys
      else if accept c = true ∧ s.length < room then read_prompt accept room (s ++ [c]) keys
      else read_prompt accept room s keys

/-- The loop over the occurrences in a line and the `strcat` behind it: `p` is what is left of the
line. `find_str` is not empty, so that a line has no more occurrences than bytes, which is what
`fuel` counts. -/
def replace_loop (find_str rep_str : List UInt8) :
    ℕ → List UInt8 → Buf (MAX_LINE_LEN * 2) → ℕ → Option (Buf (MAX_LINE_LEN * 2) × ℕ)
  | 0, p, temp_line, replaced_count => (strcat temp_line p).map fun t => (t, replaced_count)
  | fuel + 1, p, temp_line, replaced_count =>
      match strstr find_str p with
      | none => (strcat temp_line p).map fun t => (t, replaced_count)
      | some k =>
          (strcat temp_line (p.take k)).bind fun temp_line =>
          (strcat temp_line rep_str).bind fun temp_line =>
          replace_loop find_str rep_str fuel (p.drop (k + find_str.length)) temp_line
            (replaced_count + 1)

def replace_line (find_str rep_str : List UInt8) (r : Lines × ℕ) (l : ℕ) :
    Option (Lines × ℕ) :=
  (peek r.1 l).bind fun line =>
  (c_str line 0).bind fun p =>
  if (strstr find_str p).isNone then some r
  else
    (replace_loop find_str rep_str p.length p (zeros _) r.2).bind fun t =>
    (strncpy line (text t.1) (MAX_LINE_LEN - 1)).bind fun line =>
    (poke r.1 l line).bind fun lines =>
    some (lines, t.2)

/-- `prompt_replace` behind its two prompts. -/
def replace_all (find_str rep_str : List UInt8) (e : Editor) : Option Editor :=
  (save_undo_state e).bind fun e =>
  ((List.range e.line_count).foldlM (replace_line find_str rep_str) (e.lines, 0)).bind fun r =>
  if 0 < r.2 then
    some { e with
      lines := r.1
      is_modified := true
      notify_status := s!"[✔ {r.2} substituicoes feitas!]" }
  else some { e with lines := r.1, notify_status := "[✖ Nenhuma ocorrencia]" }

/-- The two strings that are typed into the prompts of `prompt_replace`. -/
def replace_strings (keys : List UInt8) : Option (List UInt8 × List UInt8) :=
  (read_prompt isprint 63 [] keys).bind fun find_str =>
  if find_str.1 = [] then none
  else (read_prompt isprint 63 [] find_str.2).map fun rep_str => (find_str.1, rep_str.1)

def prompt_replace (keys : List UInt8) (e : Editor) : Option Editor :=
  match replace_strings keys with
  | none => some e
  | some (find_str, rep_str) => replace_all find_str rep_str e

/-- The loop of `find_next_match` over the lines behind the cursor. -/
def find_match (query : List UInt8) (e : Editor) : List ℕ → Option (Option (ℕ × ℕ))
  | [] => some none
  | step :: steps =>
      let l := (e.cur_line + step) % e.line_count
      let c_start := if step = 0 then e.cur_col + 1 else 0
      (peek e.lines l).bind fun line =>
      (c_str line 0).bind fun line =>
      if c_start < line.length then
        match strcasestr query (line.drop c_start) with
        | some k => some (some (l, c_start + k))
        | none => find_match query e steps
      else find_match query e steps

def find_next_match (query : List UInt8) (e : Editor) : Option Editor :=
  (find_match query e (List.range e.line_count)).map fun found =>
    match found with
    | some (l, c) => { e with
        cur_line := l
        cur_col := c
        notify_status := s!"[✔ Linha {l + 1}:{c + 1}]" }
    | none => { e with notify_status := "[✖ Nao encontrado]" }

def prompt_search (keys : List UInt8) (e : Editor) : Option Editor :=
  match read_prompt isprint 63 [] keys with
  | none => some e
  | some (query, _) => if query = [] then some e else find_next_match query e

/-- `(int) strtol(num_buf, NULL, 10)`, which is what `atoi` is. -/
def atoi (num_buf : List UInt8) : ℤ :=
  let value : ℕ := num_buf.foldl (fun v c => v * 10 + (c.toNat - 48)) 0
  Int.bmod (min value (2 ^ 63 - 1)) (2 ^ 32)

def prompt_goto_line (keys : List UInt8) (e : Editor) : Editor :=
  match read_prompt isdigit 31 [] keys with
  | none => e
  | some (num_buf, _) =>
      if num_buf = [] then e
      else
        let target_l := min (max (atoi num_buf) 1).toNat e.line_count
        { e with
          cur_line := target_l - 1
          cur_col := 0
          notify_status := s!"[✔ Linha {target_l}]" }

/-! ## Cursor keys -/

/-- The cursor goes up or down and stays in the line. -/
def move_to_line (cur_line : ℕ) (e : Editor) : Option Editor :=
  (peek e.lines cur_line).bind fun line =>
  (strlen line).bind fun len =>
  some { e with cur_line := cur_line, cur_col := if len < e.cur_col then len else e.cur_col }

def move_up (e : Editor) : Option Editor :=
  if 0 < e.cur_line then move_to_line (e.cur_line - 1) e else some e

def move_down (e : Editor) : Option Editor :=
  if e.cur_line < e.line_count - 1 then move_to_line (e.cur_line + 1) e else some e

def move_right (e : Editor) : Option Editor :=
  (peek e.lines e.cur_line).bind fun line =>
  (strlen line).bind fun len =>
  if e.cur_col < len then some { e with cur_col := e.cur_col + 1 }
  else if e.cur_line < e.line_count - 1 then
    some { e with cur_line := e.cur_line + 1, cur_col := 0 }
  else some e

def move_left (e : Editor) : Option Editor :=
  if 0 < e.cur_col then some { e with cur_col := e.cur_col - 1 }
  else if 0 < e.cur_line then
    (peek e.lines (e.cur_line - 1)).bind fun line =>
    (strlen line).bind fun len =>
    some { e with cur_line := e.cur_line - 1, cur_col := len }
  else some e

/-! ## Files and keys -/

/-- One `fgets` into a buffer with room for `room` characters. -/
def fgets : ℕ → List UInt8 → List UInt8 × List UInt8
  | 0, file => ([], file)
  | _ + 1, [] => ([], [])
  | room + 1, c :: file =>
      if c = 10 then ([c], file)
      else ((c :: (fgets room file).1), (fgets room file).2)

/-- `while (l > 0 && (buf[l - 1] == '\r' || buf[l - 1] == '\n')) buf[--l] = '\0';` -/
def chomp (s : List UInt8) : List UInt8 := s.rdropWhile fun c => c == 13 || c == 10

/-- The reading loop of `load_file`. A `fgets` that is not at the end of the file takes a byte at
least, so that `fuel` for every byte is enough. -/
def load_lines : ℕ → List UInt8 → ℕ → Lines → Option (Lines × ℕ)
  | 0, _, line_count, lines => some (lines, line_count)
  | fuel + 1, file, line_count, lines =>
      if file = [] then some (lines, line_count)
      else
        let buf := fgets (MAX_LINE_LEN - 1) file
        if line_count < MAX_LINES then
          (peek lines line_count).bind fun line =>
          (strncpy line (chomp (text_of buf.1)) (MAX_LINE_LEN - 1)).bind fun line =>
          (put line (MAX_LINE_LEN - 1) 0).bind fun line =>
          (poke lines line_count line).bind fun lines =>
          load_lines fuel buf.2 (line_count + 1) lines
        else some (lines, line_count)

/-- The static variables before `main`. -/
def blank : Editor where
  lines := fun _ => zeros MAX_LINE_LEN
  line_count := 0
  cur_line := 0
  cur_col := 0
  undo_history := fun _ => ⟨fun _ => zeros MAX_LINE_LEN, 0, 0, 0⟩
  undo_head := 0
  undo_count := 0
  is_modified := false
  notify_status := ""

/-- The lines of a file, and how many; `none` is a file that cannot be opened. -/
def read_file (lines : Lines) : Option (List UInt8) → Option (Lines × ℕ)
  | none => some (lines, 0)
  | some bytes => load_lines bytes.length bytes 0 lines

def load_file (file : Option (List UInt8)) (e : Editor) : Option Editor :=
  (read_file e.lines file).bind fun r =>
  if r.2 = 0 then
    (peek r.1 0).bind fun line =>
    (put line 0 0).bind fun line =>
    (poke r.1 0 line).bind fun lines =>
    some { e with lines := lines, line_count := 1 }
  else some { e with lines := r.1, line_count := r.2 }

/-- What `save_file` writes: every line and a newline. -/
def saved_bytes (e : Editor) : Option (List UInt8) :=
  (List.range e.line_count).foldlM (fun bytes i =>
    ((peek e.lines i).bind fun line => c_str line 0).map fun s => bytes ++ s ++ [10]) []

/-- The file that is written, if it can be opened. -/
def save_file (opens : Bool) (e : Editor) : Option (Editor × Option (List UInt8)) :=
  if opens = true then
    (saved_bytes e).map fun bytes =>
      ({ e with is_modified := false, notify_status := "[✔ Salvo com Sucesso!]" }, some bytes)
  else some ({ e with notify_status := "[✖ Erro ao Salvar!]" }, none)

/-- What the main loop does on a key; the prompts are given the keys that are typed into them. -/
inductive Op where
  | insert_char (c : UInt8)
  | insert_newline_smart
  | delete_char
  | duplicate_current_line
  | delete_current_line
  | prompt_replace (keys : List UInt8)
  | perform_undo
  | move_up
  | move_down
  | move_right
  | move_left
  | prompt_search (keys : List UInt8)
  | prompt_goto_line (keys : List UInt8)

def step (e : Editor) (op : Op) : Option Editor :=
  let e := { e with notify_status := "" }
  match op with
  | .insert_char c => insert_char c e
  | .insert_newline_smart => insert_newline_smart e
  | .delete_char => delete_char e
  | .duplicate_current_line => duplicate_current_line e
  | .delete_current_line => delete_current_line e
  | .prompt_replace keys => prompt_replace keys e
  | .perform_undo => perform_undo e
  | .move_up => move_up e
  | .move_down => move_down e
  | .move_right => move_right e
  | .move_left => move_left e
  | .prompt_search keys => prompt_search keys e
  | .prompt_goto_line keys => some (prompt_goto_line keys e)

end SysInC.Tedit
