/-
Files sent with `netclip`, from `send_file` to `run_listener`.

The header is read byte by byte up to a blank line and then scanned with
`NETCLIP1\nFILE\n%127[^\n]\n%zu`. The newline in front of the name skips white space, and the name
is cut at 127 bytes, so a file arrives as it was exactly when its name is that short and does not
begin with a blank; how the bytes arrive makes no difference. The name is opened as it stands: a
peer that sends one with a slash in front, or one that climbs, opens a file elsewhere
(`transfer_iff`).
-/
import SysInC.Delimited
import SysInC.Httpget
import SysInC.LexicalPath

set_option autoImplicit false

namespace SysInC.Netclip

open CText LexicalPath
open CString (text_of text_of_append zero_notMem_text_of)
open Httpget (isspace isdigit scan_number strtoull)

/-! ## `send_file` -/

/-- What `%ld` prints for a size. -/
def decimal (n : ℕ) : List UInt8 := (Nat.toDigits 10 n).map fun c => UInt8.ofNat c.toNat

/-- The file's name without its directories. -/
def filename (filepath : List UInt8) : List UInt8 :=
  match strrchr filepath 47 with
  | some k => filepath.drop (k + 1)
  | none => filepath

/-- What is written to the socket. -/
def send_file (filepath content : List UInt8) : List UInt8 :=
  snprintf 256 (literal "NETCLIP1\nFILE\n" ++ (filename filepath
    ++ 10 :: (decimal content.length ++ [10, 10]))) ++ content

/-! ## `run_listener` -/

/-- What a connection leads to: `malloc` of a size and the text that is copied to the clipboard,
or a name that is opened for writing and the bytes that are written to it. -/
inductive served where
  | nothing
  | text (size : ℕ) (text_buf : List UInt8)
  | file (filename written : List UInt8)

/-- `newlines` behind a byte of the header. -/
def count (newlines : ℕ) (ch : UInt8) : ℕ :=
  if ch = 10 then newlines + 1 else if ch = 13 then newlines else 0

/-- The loop that reads the header, with room for so many bytes more: the header and what is left
in the socket. `read(client_fd, &ch, 1)` is the next byte, however many have arrived. -/
def header_loop : ℕ → List UInt8 → ℕ → List UInt8 → List UInt8 × List UInt8
  | 0, header, _, incoming => (header, incoming)
  | _ + 1, header, _, [] => (header, [])
  | room + 1, header, newlines, ch :: incoming =>
    if ch = 10 ∧ (count newlines ch = 2 ∨ header.getLast? = some 10) then
      (header ++ [ch], incoming)
    else header_loop room (header ++ [ch]) (count newlines ch) incoming

/-- `read` of up to `size` bytes when `ready` have arrived; it waits for the first. -/
def read (ready size : ℕ) (incoming : List UInt8) : List UInt8 :=
  incoming.take (min size (max ready 1))

/-- The loop that reads a payload of which `left` bytes are missing, `size` bytes at most in one
turn. -/
def receive (ready : ℕ → ℕ) (size turn left : ℕ) (incoming : List UInt8) : List UInt8 :=
  if _done : left = 0 then []
  else
    let got := read (ready turn) (min left size) incoming
    if _stopped : got = [] then []
    else got ++ receive ready size (turn + 1) (left - got.length) (incoming.drop got.length)
termination_by left
decreasing_by
  exact Nat.sub_lt (Nat.pos_of_ne_zero _done) (List.length_pos_iff.mpr _stopped)

/-- `sscanf(header, "NETCLIP1\nFILE\n%127[^\n]\n%zu", filename, &file_len)` behind the word
`FILE`. -/
def scan_file (fields : List UInt8) : List UInt8 × ℕ :=
  let fields := fields.dropWhile isspace
  let filename := (fields.takeWhile (· ≠ 10)).take 127
  if filename = [] then (literal "received_file", 0)
  else (filename, strtoull (fields.drop filename.length))

def CHUNK_SIZE : ℕ := 65536

/-- One connection. `ready` is what has arrived at each read of the payload. -/
def run_listener (malloc : ℕ → Bool) (ready : ℕ → ℕ) (incoming : List UInt8) : served :=
  let (header, rest) := header_loop 255 [] 0 incoming
  let header := text_of header
  if (literal "NETCLIP1\nTEXT").isPrefixOf header then
    let payload_len := strtoull (header.drop 13)
    let size := (payload_len + 1) % 2 ^ 64
    if 0 < payload_len ∧ malloc size then
      .text size (receive ready payload_len 0 payload_len rest)
    else .nothing
  else if (literal "NETCLIP1\nFILE").isPrefixOf header then
    let (filename, file_len) := scan_file (header.drop 13)
    .file filename (receive ready CHUNK_SIZE 0 file_len rest)
  else .nothing

/-! ## The claim -/

/-- A file that is sent, with a name that a directory can hold. -/
structure SentFile where
  filepath : List UInt8
  content : List UInt8
  text : 0 ∉ filepath
  name_ne_nil : filename filepath ≠ []
  name_length : (filename filepath).length ≤ 255
  one_line : 10 ∉ filename filepath
  size : content.length < 2 ^ 63

/-- The file arrives under its name and with its bytes. -/
def Transfers (f : SentFile) : Prop :=
  ∀ malloc ready, run_listener malloc ready (send_file f.filepath f.content)
    = .file (filename f.filepath) f.content

/-- No file is opened outside of the working directory. -/
def StaysInside (incoming : List UInt8) : Prop :=
  ∀ malloc ready name written, run_listener malloc ready incoming = .file name written →
    Inside 47 46 [46] name

/-! ## The condition on what a peer sends -/

/-- A newline, and another one behind it with nothing but carriage returns between. -/
def BlankLine (t : List UInt8) : Prop := ∃ k, 10 :: (List.replicate k 13 ++ [10]) <:+: t

/-- The bytes name a file: behind the first line, white space without a blank line and then, on
one line and within the 255 bytes of a header, the name. It ends at a newline, a NUL, the end of
what is sent or of the header, or with its 127th byte. -/
def Names (incoming name : List UInt8) : Prop :=
  ∃ ws rest, incoming = literal "NETCLIP1\nFILE" ++ (ws ++ (name ++ rest))
    ∧ ((∀ c ∈ ws, isspace c) ∧ ¬BlankLine ws)
    ∧ (name ≠ [] ∧ (∀ c ∈ name.head?, ¬isspace c) ∧ 10 ∉ name ∧ 0 ∉ name)
    ∧ (name.length ≤ 127 ∧ 13 + ws.length + name.length ≤ 255)
    ∧ (name.length = 127 ∨ 13 + ws.length + name.length = 255 ∨ ∀ c ∈ rest.head?, c = 10 ∨ c = 0)

/-- The path is relative and climbs no level. -/
def Harmless (path : List UInt8) : Prop := is_rooted 47 path = false ∧ (climb 47 46 path).1 = 0

/-! ## Payloads -/

/-- One read takes bytes from the front, and none only at the end. -/
theorem read_spec (ready size : ℕ) (incoming : List UInt8) :
    read ready size incoming
        ++ incoming.drop (read ready size incoming).length = incoming
      ∧ (read ready size incoming).length ≤ size
      ∧ (read ready size incoming = [] → size = 0 ∨ incoming = []) := by
  refine ⟨?_, ?_, fun none_left => ?_⟩
  · obtain ⟨tail, htail⟩ := List.take_prefix (min size (max ready 1)) incoming
    conv_lhs => rw [← htail]
    rw [show read ready size (incoming.take (min size (max ready 1)) ++ tail)
      = incoming.take (min size (max ready 1)) by rw [htail]; rfl, List.drop_left, htail]
  · rw [read, List.length_take]
    omega
  · rw [read, List.take_eq_nil_iff] at none_left
    refine none_left.imp (fun zero => ?_) id
    omega

/-- All of the payload that comes, in whatever pieces. -/
theorem receive_eq (ready : ℕ → ℕ) {size : ℕ} (hsize : 0 < size) (turn left : ℕ)
    (incoming : List UInt8) : receive ready size turn left incoming = incoming.take left := by
  induction left using Nat.strongRecOn generalizing turn incoming with
  | _ left ih =>
      obtain ⟨hsplit, hle, hend⟩ := read_spec (ready turn) (min left size) incoming
      rw [receive]
      split
      · next done => rw [done, List.take_zero]
      · next missing =>
        dsimp only
        split
        · next none_left =>
          rcases hend none_left with zero | empty
          · omega
          · rw [empty, List.take_nil]
        · next some_got =>
          have hpos := List.length_pos_iff.mpr some_got
          have hall : (read (ready turn) (min left size) incoming).take left
              = read (ready turn) (min left size) incoming := List.take_of_length_le (by omega)
          rw [ih _ (by omega)]
          conv_rhs => rw [← hsplit]
          rw [List.take_append, hall]

/-! ## Where the header ends -/

/-- `newlines` behind a text. -/
def counted (n : ℕ) (t : List UInt8) : ℕ := t.foldl count n

/-- No byte of the text ends the header. -/
def quiet : ℕ → List UInt8 → Bool
  | _, [] => true
  | n, ch :: t => (ch != 10 || n == 0) && quiet (count n ch) t

variable {a b t u h rest incoming name ws : List UInt8} {n room : ℕ}

theorem quiet_append : quiet n (a ++ b) = (quiet n a && quiet (counted n a) b) := by
  induction a generalizing n with
  | nil => rfl
  | cons ch a ih =>
      rw [List.cons_append, quiet, quiet, ih, Bool.and_assoc]
      rfl

theorem quiet_of_front (h : quiet n b = true) (hfront : a <+: b) : quiet n a = true := by
  obtain ⟨t, rfl⟩ := hfront
  rw [quiet_append, Bool.and_eq_true] at h
  exact h.1

/-- On one line there is nothing to end the header. -/
theorem quiet_line (h : 10 ∉ t) : quiet n t = true := by
  induction t generalizing n with
  | nil => rfl
  | cons ch t ih =>
      rw [List.mem_cons, not_or] at h
      rw [quiet, ih h.2, Bool.and_true]
      simp [Ne.symm h.1]

theorem counted_line_le (h : 10 ∉ t) : counted n t ≤ n := by
  induction t generalizing n with
  | nil => exact le_rfl
  | cons ch t ih =>
      rw [List.mem_cons, not_or] at h
      have hhead : count n ch ≤ n := by
        unfold count
        rw [if_neg (Ne.symm h.1)]
        split <;> omega
      exact (ih h.2).trans hhead

theorem counted_append : counted n (a ++ b) = counted (counted n a) b := List.foldl_append

/-- Behind a line that does not begin with a carriage return no newline is counted. -/
theorem counted_line (hline : 10 ∉ t) (hne : t ≠ []) (hcr : t.head? ≠ some 13) :
    counted n t = 0 := by
  cases t with
  | nil => exact absurd rfl hne
  | cons c t =>
      rw [List.mem_cons, not_or] at hline
      have hzero : count n c = 0 := by
        rw [count, if_neg (Ne.symm hline.1), if_neg fun cr => hcr (by rw [cr]; rfl)]
      have hrest := counted_line_le (n := 0) hline.2
      rw [counted, List.foldl_cons, hzero]
      exact Nat.le_zero.mp hrest

theorem quiet_iff :
    (quiet 0 t = true ↔ ¬BlankLine t)
      ∧ (quiet 1 t = true ↔ ¬BlankLine t ∧ ¬∃ k, List.replicate k 13 ++ [10] <+: t) := by
  induction t with
  | nil =>
      have hblank : ¬BlankLine [] := fun ⟨k, hk⟩ => absurd (List.infix_nil.mp hk) (by simp)
      simp [quiet, hblank]
  | cons ch t ih =>
      have hblank : BlankLine (ch :: t)
          ↔ (ch = 10 ∧ ∃ k, List.replicate k 13 ++ [10] <+: t) ∨ BlankLine t := by
        simp only [BlankLine, List.infix_cons_iff, List.cons_prefix_cons, exists_or]
        exact or_congr_left
          ⟨fun ⟨k, hk⟩ => ⟨hk.1.symm, k, hk.2⟩, fun ⟨hk, k, hk'⟩ => ⟨k, hk.symm, hk'⟩⟩
      have hnext : (∃ k, List.replicate k 13 ++ [10] <+: ch :: t)
          ↔ ch = 10 ∨ (ch = 13 ∧ ∃ k, List.replicate k 13 ++ [10] <+: t) := by
        constructor
        · rintro ⟨k, hk⟩
          cases k with
          | zero => exact Or.inl (List.cons_prefix_cons.mp hk).1.symm
          | succ k =>
              rw [List.replicate_succ, List.cons_append, List.cons_prefix_cons] at hk
              exact Or.inr ⟨hk.1.symm, k, hk.2⟩
        · rintro (rfl | ⟨rfl, k, hk⟩)
          · exact ⟨0, by simp⟩
          · refine ⟨k + 1, ?_⟩
            rw [List.replicate_succ, List.cons_append, List.cons_prefix_cons]
            exact ⟨rfl, hk⟩
      rw [hblank, hnext, quiet, quiet]
      by_cases newline : ch = 10
      · simp [newline, count, ih.2, and_comm]
      · by_cases cr : ch = 13
        · simp [cr, count, ih.1, ih.2]
        · simp [newline, cr, count, ih.1]

/-- What the loop has read: it goes on to the first byte that ends the header, or to where the
room or the bytes end. -/
theorem header_loop_spec {header : List UInt8} (hn : n ≤ 1)
    (hlast : header.getLast? = some 10 → n ≠ 0) :
    ∃ h rest, header_loop room header n incoming = (header ++ h, rest) ∧ incoming = h ++ rest
      ∧ h.length ≤ room ∧ quiet n h.dropLast = true
      ∧ (rest = [] ∨ h.length = room ∨ quiet n h = false) := by
  induction room generalizing header n incoming with
  | zero =>
      refine ⟨[], incoming, ?_, rfl, le_rfl, rfl, Or.inr (Or.inl rfl)⟩
      rw [List.append_nil]
      rfl
  | succ room ih =>
      cases incoming with
      | nil =>
          refine ⟨[], [], ?_, rfl, Nat.zero_le _, rfl, Or.inl rfl⟩
          rw [List.append_nil]
          rfl
      | cons ch incoming =>
          rw [header_loop]
          by_cases stops : ch = 10 ∧ (count n ch = 2 ∨ header.getLast? = some 10)
          · have hone : n ≠ 0 := by
              rcases stops.2 with two | last
              · rw [stops.1, count, if_pos rfl] at two
                omega
              · exact hlast last
            refine ⟨[ch], incoming, if_pos stops, rfl, ?_, rfl, Or.inr (Or.inr ?_)⟩
            · rw [List.length_singleton]
              omega
            · simp [quiet, stops.1, hone]
          · have hzero : ch = 10 → n = 0 := by
              intro newline
              by_contra hone
              refine stops ⟨newline, Or.inl ?_⟩
              rw [newline, count, if_pos rfl]
              omega
            have hcount : count n ch ≤ 1 := by
              unfold count
              split
              · next newline => rw [hzero newline]
              · split <;> omega
            have hnext : (header ++ [ch]).getLast? = some 10 → count n ch ≠ 0 := by
              intro last
              rw [List.getLast?_append, List.getLast?_singleton, Option.some_or,
                Option.some.injEq] at last
              simp [count, last]
            obtain ⟨h, rest, hloop, hsplit, hlen, hquiet, hend⟩ :=
              @ih incoming (count n ch) (header ++ [ch]) hcount hnext
            have hhead : (ch != 10 || n == 0) = true := by
              by_cases newline : ch = 10
              · simp [hzero newline]
              · simp [newline]
            refine ⟨ch :: h, rest, ?_, ?_, ?_, ?_, ?_⟩
            · rw [if_neg stops, hloop, List.append_assoc, List.singleton_append]
            · rw [hsplit, List.cons_append]
            · rw [List.length_cons]
              omega
            · cases h with
              | nil => rfl
              | cons d h =>
                  rw [List.dropLast_cons_cons, quiet, hhead, Bool.true_and]
                  exact hquiet
            · rw [List.length_cons, quiet, hhead, Bool.true_and]
              exact hend.imp_right (Or.imp_left fun full => by rw [full])

/-- The header of what is sent. -/
theorem header_spec (incoming : List UInt8) :
    ∃ h rest, header_loop 255 [] 0 incoming = (h, rest) ∧ incoming = h ++ rest
      ∧ h.length ≤ 255 ∧ quiet 0 h.dropLast = true
      ∧ (rest = [] ∨ h.length = 255 ∨ quiet 0 h = false) :=
  header_loop_spec (Nat.zero_le 1) fun last => absurd last (by simp)

theorem prefix_dropLast (hne : b ≠ []) : a <+: (a ++ b).dropLast := by
  rw [List.dropLast_append_of_ne_nil hne]
  exact List.prefix_append a _

/-- A text that does not end the header is read to its end. -/
theorem prefix_of_quiet (hsplit : h ++ rest = a ++ b) (hend : rest = [] ∨ h.length = 255 ∨
    quiet 0 h = false) (ha : quiet 0 a = true) (hlen : a.length ≤ 255) : a <+: h := by
  rcases List.append_eq_append_iff.mp hsplit with ⟨c, rfl, hc⟩ | ⟨c, rfl, -⟩
  · have hnone : c = [] := by
      rcases hend with rfl | full | loud
      · exact (List.append_eq_nil_iff.mp hc.symm).1
      · rw [List.length_append, full] at hlen
        exact List.length_eq_zero_iff.mp (by omega)
      · exact absurd (quiet_of_front ha (List.prefix_append h c)) (by simp [loud])
    rw [hnone, List.append_nil]
  · exact List.prefix_append a c

/-- The byte that ends the header is its last. -/
theorem header_eq_of_loud (hsplit : h ++ rest = a ++ 10 :: b)
    (hend : rest = [] ∨ h.length = 255 ∨ quiet 0 h = false) (hlast : quiet 0 h.dropLast = true)
    (ha : quiet 0 a = true) (hloud : quiet 0 (a ++ [10]) = false) (hlen : a.length < 255) :
    h = a ++ [10] := by
  obtain ⟨c, rfl⟩ := prefix_of_quiet hsplit hend ha hlen.le
  rw [List.append_assoc, List.append_right_inj] at hsplit
  match c with
  | [] =>
    rw [List.nil_append] at hsplit
    rw [List.append_nil, hsplit, ha] at hend
    rcases hend with none_left | full | loud
    · exact absurd none_left (by simp)
    · omega
    · exact absurd loud (by simp)
  | [d] =>
    obtain ⟨rfl, -⟩ := List.cons.inj hsplit
    rfl
  | d :: e :: c =>
    obtain ⟨rfl, -⟩ := List.cons.inj hsplit
    refine absurd (quiet_of_front hlast ?_) (by rw [hloud]; decide)
    rw [show a ++ 10 :: e :: c = (a ++ [10]) ++ e :: c by simp]
    exact prefix_dropLast (List.cons_ne_nil e c)

/-! ## What is scanned -/

theorem not_isspace_head_dropWhile (t : List UInt8) :
    ∀ c ∈ (t.dropWhile isspace).head?, ¬isspace c := by
  intro c hc
  have := List.head?_dropWhile_not isspace t
  rw [Option.mem_def.mp hc] at this
  simpa using this

/-- White space is passed over up to a text that begins otherwise. -/
theorem dropWhile_isspace (hws : ∀ c ∈ ws, isspace c) (hne : name ≠ [])
    (hname : ∀ c ∈ name.head?, ¬isspace c) (t : List UInt8) :
    (ws ++ (name ++ t)).dropWhile isspace = name ++ t := by
  rw [List.dropWhile_append_of_pos hws]
  cases name with
  | nil => exact absurd rfl hne
  | cons c name => exact List.dropWhile_cons_of_neg (hname c rfl)

/-- A name on its line, cut at 127 bytes. -/
theorem take_line (hline : 10 ∉ name) (hlen : name.length ≤ 127)
    (hend : name.length = 127 ∨ ∀ c ∈ t.head?, c = 10) :
    ((name ++ t).takeWhile (· ≠ 10)).take 127 = name := by
  rw [Delimited.takeWhile_append hline]
  rcases hend with full | newline
  · exact List.take_left' full
  · have hnone : t.takeWhile (· ≠ 10) = [] := by
      cases t with
      | nil => rfl
      | cons c t =>
          obtain rfl := newline c rfl
          rfl
    rw [hnone, List.append_nil, List.take_of_length_le hlen]

/-- What is scanned for a name is short and begins with no blank. -/
theorem scan_file_name (fields : List UInt8) :
    (scan_file fields).1.length ≤ 127 ∧ ∀ c ∈ (scan_file fields).1.head?, ¬isspace c := by
  unfold scan_file
  dsimp only
  split
  · exact ⟨by decide, by decide +kernel⟩
  · refine ⟨List.length_take_le _ _, fun c hc => not_isspace_head_dropWhile fields c ?_⟩
    have hfront := (List.take_prefix 127 _).trans
      (List.takeWhile_prefix (l := fields.dropWhile isspace) (· ≠ (10 : UInt8)))
    obtain ⟨t, ht⟩ := hfront
    rw [← ht, List.head?_append, Option.mem_def.mp hc]
    rfl

/-! ## The name in what is sent -/

theorem notMem_literal_file : 0 ∉ literal "NETCLIP1\nFILE" ∧ (literal "NETCLIP1\nFILE").length = 13
    ∧ quiet 0 (literal "NETCLIP1\nFILE") = true ∧ counted 0 (literal "NETCLIP1\nFILE") = 0 := by
  decide

theorem zero_notMem_of_isspace (h : ∀ c ∈ ws, isspace c) : 0 ∉ ws := fun hmem =>
  absurd (h 0 hmem) (by decide)

/-- A named file is the one that is scanned. -/
theorem scan_of_names (hnames : Names incoming name) :
    ∃ fields, text_of (header_loop 255 [] 0 incoming).1 = literal "NETCLIP1\nFILE" ++ fields
      ∧ (scan_file fields).1 = name := by
  obtain ⟨ws, rest, hincoming, ⟨hws, hquiet⟩, ⟨hne, hhead, hline, hzero⟩, ⟨hshort, hroom⟩, hstop⟩ :=
    hnames
  obtain ⟨hclean, hlen, hfile, hcount⟩ := notMem_literal_file
  obtain ⟨h, left, hloop, hsplit, hle, -, hend⟩ := header_spec incoming
  -- the loop reads on to the end of the name
  obtain ⟨c, rfl⟩ : literal "NETCLIP1\nFILE" ++ (ws ++ name) <+: h := by
    refine prefix_of_quiet (b := rest) (by rw [← hsplit, hincoming]; simp) hend ?_ ?_
    · rw [quiet_append, quiet_append, hfile, hcount, (quiet_iff.1).mpr hquiet, quiet_line hline]
      rfl
    · rw [List.length_append, List.length_append, hlen]
      omega
  have hrest : rest = c ++ left := by
    rw [hincoming] at hsplit
    simpa using hsplit
  have htext : text_of (literal "NETCLIP1\nFILE" ++ (ws ++ name) ++ c)
      = literal "NETCLIP1\nFILE" ++ (ws ++ (name ++ text_of c)) := by
    rw [text_of_append]
    · simp
    · simp [hclean, zero_notMem_of_isspace hws, hzero]
  refine ⟨_, by rw [hloop, htext], ?_⟩
  have hscanned : ((name ++ text_of c).takeWhile (· ≠ 10)).take 127 = name := by
    refine take_line hline hshort ?_
    rcases hstop with full | full | hnext
    · exact Or.inl full
    · refine Or.inr fun d hd => ?_
      have hnone : c = [] := by
        rw [List.length_append, List.length_append, List.length_append, hlen] at hle
        exact List.length_eq_zero_iff.mp (by omega)
      rw [hnone] at hd
      exact absurd hd (by simp [text_of])
    · refine Or.inr fun d hd => ?_
      cases c with
      | nil => exact absurd hd (by simp [text_of])
      | cons e c =>
          rcases hnext e (by rw [hrest]; rfl) with rfl | rfl
          · simpa [text_of] using hd.symm
          · exact absurd hd (by simp [text_of])
  rw [scan_file, dropWhile_isspace hws hne hhead, hscanned, if_neg hne]

/-- Behind the text of a buffer stands a NUL, or nothing. -/
theorem text_of_stop (bytes : List UInt8) :
    ∃ nul, bytes = text_of bytes ++ nul ∧ ∀ c ∈ nul.head?, c = 0 := by
  refine ⟨bytes.dropWhile (· != 0), List.takeWhile_append_dropWhile.symm, fun c hc => ?_⟩
  have hnot := List.head?_dropWhile_not (fun c : UInt8 => c != 0) bytes
  rw [Option.mem_def.mp hc] at hnot
  simpa using hnot

/-- A name that was not cut ends with its line. -/
theorem take_line_end (hname : name = ((name ++ t).takeWhile (· ≠ 10)).take 127)
    (hline : 10 ∉ name) (hshort : name.length ≠ 127) : ∀ c ∈ t.head?, c = 10 := by
  intro c hc
  by_contra hne
  cases t with
  | nil => exact absurd hc (by simp)
  | cons d t =>
      obtain rfl : d = c := by simpa using hc
      have hlen := congrArg List.length hname
      rw [Delimited.takeWhile_append hline,
        List.takeWhile_cons_of_pos (by simpa using hne), List.length_take, List.length_append,
        List.length_cons] at hlen
      omega

/-- What is scanned is named, or nothing was scanned. -/
theorem names_of_scan {fields : List UInt8}
    (htext : text_of (header_loop 255 [] 0 incoming).1 = literal "NETCLIP1\nFILE" ++ fields) :
    scan_file fields = (literal "received_file", 0) ∨ Names incoming (scan_file fields).1 := by
  obtain ⟨hclean, hlen, hfile, hcount⟩ := notMem_literal_file
  obtain ⟨h, left, hloop, hsplit, hle, hlast, hend⟩ := header_spec incoming
  rw [hloop] at htext
  dsimp only at htext
  obtain ⟨nul, hnul, hstop⟩ := text_of_stop h
  have hfields : 0 ∉ fields := fun hmem => by
    have hzero := zero_notMem_text_of h
    rw [htext] at hzero
    exact hzero (List.mem_append_right _ hmem)
  -- the fields are white space, a name and more
  obtain ⟨ws, behind, hwhole, hws, hbehind, hdrop⟩ : ∃ ws behind, fields = ws ++ behind
      ∧ (∀ c ∈ ws, isspace c) ∧ (∀ c ∈ behind.head?, ¬isspace c)
      ∧ fields.dropWhile isspace = behind :=
    ⟨fields.takeWhile isspace, fields.dropWhile isspace, List.takeWhile_append_dropWhile.symm,
      fun c hc => List.all_eq_true.mp List.all_takeWhile c hc,
      not_isspace_head_dropWhile fields, rfl⟩
  obtain ⟨name, hname⟩ : ∃ name, name = (behind.takeWhile (· ≠ 10)).take 127 := ⟨_, rfl⟩
  have hscan : scan_file fields
      = if name = [] then (literal "received_file", 0)
        else (name, strtoull (behind.drop name.length)) := by
    rw [scan_file, hdrop, hname]
  rw [hscan]
  by_cases hne : name = []
  · exact Or.inl (if_pos hne)
  rw [if_neg hne]
  refine Or.inr ?_
  change Names incoming name
  have hline : 10 ∉ name := fun hmem =>
    Delimited.not_mem_first 10 behind (List.mem_of_mem_take (hname ▸ hmem))
  obtain ⟨after, rfl⟩ : name <+: behind :=
    hname ▸ (List.take_prefix 127 _).trans (List.takeWhile_prefix _)
  have hbytes : h = literal "NETCLIP1\nFILE" ++ (ws ++ (name ++ (after ++ nul))) := by
    rw [hnul, htext, hwhole]
    simp
  have hquiet : quiet 0 (literal "NETCLIP1\nFILE" ++ ws) = true := by
    refine quiet_of_front hlast ?_
    rw [hbytes, ← List.append_assoc]
    exact prefix_dropLast (by simp [hne])
  have hquiet_ws : quiet 0 ws = true := by
    rw [quiet_append, hcount, Bool.and_eq_true] at hquiet
    exact hquiet.2
  refine ⟨ws, after ++ nul ++ left, ?_, ⟨hws, (quiet_iff.1).mp hquiet_ws⟩, ⟨hne, ?_, hline, ?_⟩,
    ⟨?_, ?_⟩, ?_⟩
  · rw [hsplit, hbytes]
    simp
  · intro c hc
    refine hbehind c ?_
    rw [List.head?_append, Option.mem_def.mp hc]
    rfl
  · exact fun hmem => hfields (by rw [hwhole]; simp [hmem])
  · rw [hname]
    exact List.length_take_le _ _
  · have := congrArg List.length hbytes
    simp only [List.length_append, hlen] at this
    omega
  · by_cases hfull : name.length = 127
    · exact Or.inl hfull
    have hafter := take_line_end hname hline hfull
    cases after with
    | cons c after => exact Or.inr (Or.inr fun d hd => Or.inl (hafter d (by simpa using hd)))
    | nil =>
        cases nul with
        | cons c nul => exact Or.inr (Or.inr fun d hd => Or.inr (hstop d (by simpa using hd)))
        | nil =>
            rcases hend with rfl | full | loud
            · exact Or.inr (Or.inr fun d hd => absurd hd (by simp))
            · refine Or.inr (Or.inl ?_)
              rw [hbytes] at full
              simpa [hlen, Nat.add_assoc] using full
            · have hwhole_quiet : quiet 0 h = true := by
                rw [hbytes, List.nil_append, List.append_nil, ← List.append_assoc, quiet_append,
                  hquiet, quiet_line hline]
                rfl
              exact absurd hwhole_quiet (by simp [loud])

/-! ## What a connection opens -/

/-- A header with the word `FILE` opens what is scanned behind it. -/
theorem run_listener_file {fields : List UInt8} (hloop : header_loop 255 [] 0 incoming = (h, rest))
    (htext : text_of h = literal "NETCLIP1\nFILE" ++ fields) (malloc : ℕ → Bool)
    (ready : ℕ → ℕ) :
    run_listener malloc ready incoming
      = .file (scan_file fields).1 (rest.take (scan_file fields).2) := by
  obtain ⟨-, hlen, -, -⟩ := notMem_literal_file
  have hother : (literal "NETCLIP1\nTEXT").isPrefixOf (literal "NETCLIP1\nFILE" ++ fields)
      = false := by
    rw [Bool.eq_false_iff, Ne, List.isPrefixOf_iff_prefix]
    intro hfront
    have hsame := List.prefix_of_prefix_length_le hfront (List.prefix_append _ fields) (by decide)
    exact absurd (hsame.eq_of_length (by decide)) (by decide)
  have hword : (literal "NETCLIP1\nFILE").isPrefixOf (literal "NETCLIP1\nFILE" ++ fields)
      = true := by
    rw [List.isPrefixOf_iff_prefix]
    exact List.prefix_append _ _
  have hfields : (literal "NETCLIP1\nFILE" ++ fields).drop 13 = fields := List.drop_left' hlen
  rw [run_listener, hloop]
  dsimp only
  rw [htext, hother, hword, hfields, if_neg (by decide), if_pos rfl,
    receive_eq ready (by decide : 0 < CHUNK_SIZE)]

/-- What is opened was scanned behind the word `FILE`. -/
theorem scan_of_run {malloc : ℕ → Bool} {ready : ℕ → ℕ} {written : List UInt8}
    (hrun : run_listener malloc ready incoming = .file name written) :
    ∃ fields, text_of (header_loop 255 [] 0 incoming).1 = literal "NETCLIP1\nFILE" ++ fields
      ∧ (scan_file fields).1 = name := by
  rw [run_listener] at hrun
  dsimp only at hrun
  split at hrun
  · split at hrun <;> exact absurd hrun (by simp)
  · split at hrun
    · next hword =>
      obtain ⟨fields, hfields⟩ := List.isPrefixOf_iff_prefix.mp hword
      refine ⟨fields, hfields.symm, ?_⟩
      rw [← hfields, List.drop_left' notMem_literal_file.2.1] at hrun
      exact (served.file.inj hrun).1
    · exact absurd hrun (by simp)

theorem inside_here_iff_harmless (name : List UInt8) : Inside 47 46 [46] name ↔ Harmless name := by
  rw [inside_here_iff (by decide), Harmless, Lands]
  refine and_congr_right fun _ => ⟨fun lands => ?_, Or.inl⟩
  rcases lands with zero | ⟨level, -⟩
  · exact zero
  · have hhere : (normal 47 46 [46] : List (List UInt8)) = [] := by decide
    have hrooted : is_rooted 47 [(46 : UInt8)] = false := by decide
    rw [hhere, hrooted] at level
    simpa using level

/-- Which bytes open nothing outside. -/
theorem stays_inside_iff (incoming : List UInt8) :
    StaysInside incoming ↔ ∀ name, Names incoming name → Harmless name := by
  constructor
  · intro inside name hnames
    obtain ⟨fields, htext, hscan⟩ := scan_of_names hnames
    have hfile := run_listener_file (Prod.eta _).symm htext (fun _ => true) (fun _ => 0)
    rw [hscan] at hfile
    exact (inside_here_iff_harmless name).mp (inside _ _ name _ hfile)
  · intro hharmless malloc ready name written hrun
    rw [inside_here_iff_harmless]
    obtain ⟨fields, htext, hscan⟩ := scan_of_run hrun
    rcases names_of_scan htext with default | hnames
    · rw [← hscan, default]
      exact ⟨by decide, by decide⟩
    · exact hharmless name (hscan ▸ hnames)

/-! ## Files that are sent -/

theorem decimal_length_le {n : ℕ} (h : n < 2 ^ 63) : (decimal n).length ≤ 19 := by
  rw [decimal, List.length_map, Nat.length_toDigits_le_iff (by decide) (by decide)]
  omega

/-- A decimal digit as a byte. -/
theorem digit_byte {d : Char} (h : d.isDigit = true) :
    isdigit (UInt8.ofNat d.toNat) = true ∧ (UInt8.ofNat d.toNat).toNat = d.toNat := by
  rw [Char.isDigit_iff_toNat] at h
  have hlow : 48 ≤ d.toNat := h.1
  have hhigh : d.toNat ≤ 57 := h.2
  have hbyte : (UInt8.ofNat d.toNat).toNat = d.toNat := by
    rw [UInt8.toNat_ofNat']
    omega
  refine ⟨?_, hbyte⟩
  simp only [isdigit, Bool.and_eq_true, decide_eq_true_eq, UInt8.le_iff_toNat_le, hbyte]
  exact ⟨hlow, hhigh⟩

theorem decimal_digits (n : ℕ) : ∀ c ∈ decimal n, isdigit c = true := by
  intro c hc
  obtain ⟨d, hd, rfl⟩ := List.mem_map.mp hc
  exact (digit_byte (Nat.isDigit_of_mem_toDigits (by decide) (by decide) hd)).1

theorem foldl_digits (ds : List Char) (hds : ∀ d ∈ ds, d.isDigit = true) (v : ℕ) :
    (ds.map fun c => UInt8.ofNat c.toNat).foldl (fun v c => v * 10 + (c.toNat - 48)) v
      = Nat.ofDigitChars 10 ds v := by
  induction ds generalizing v with
  | nil => rfl
  | cons d ds ih =>
      rw [List.forall_mem_cons] at hds
      rw [List.map_cons, List.foldl_cons, (digit_byte hds.1).2, ih hds.2, Nat.ofDigitChars_cons,
        Nat.mul_comm v]
      rfl

/-- The size is read back. -/
theorem strtoull_decimal {n : ℕ} (h : n < 2 ^ 63) {c : UInt8} (hc : isdigit c = false)
    (t : List UInt8) : strtoull (decimal n ++ c :: t) = n := by
  have hdigits := decimal_digits n
  have hvalue : (decimal n).foldl (fun v c => v * 10 + (c.toNat - 48)) 0 = n := by
    rw [decimal, foldl_digits _ fun d hd => Nat.isDigit_of_mem_toDigits (by decide) (by decide) hd,
      Nat.ofDigitChars_ten_toDigits]
  have htake : (decimal n ++ c :: t).takeWhile isdigit = decimal n := by
    rw [List.takeWhile_append_of_pos hdigits, List.takeWhile_cons_of_neg (by simp [hc]),
      List.append_nil]
  obtain ⟨d, ds, hds⟩ : ∃ d ds, decimal n = d :: ds :=
    List.exists_cons_of_ne_nil (by simp [decimal, Nat.toDigits_ne_nil])
  have hd : isdigit d = true := hdigits d (by rw [hds]; exact List.mem_cons_self)
  have hrange : 48 ≤ d.toNat ∧ d.toNat ≤ 57 := by
    simpa [isdigit, UInt8.le_iff_toNat_le] using hd
  have hspace : isspace d = false := by
    simp only [isspace, Bool.or_eq_false_iff, Bool.and_eq_false_iff, decide_eq_false_iff_not,
      UInt8.le_iff_toNat_le, ← UInt8.toNat_inj, UInt8.reduceToNat]
    omega
  have hsign : ¬(d = 45 ∨ d = 43) := by
    simp only [← UInt8.toNat_inj, UInt8.reduceToNat]
    omega
  have hscan : scan_number (decimal n ++ c :: t) = some (n : ℤ) := by
    have hdrop : (decimal n ++ c :: t).dropWhile isspace = decimal n ++ c :: t := by
      rw [hds, List.cons_append, List.dropWhile_cons_of_neg (by simp [hspace])]
    have hhead : (decimal n ++ c :: t).head? = some d := by rw [hds]; rfl
    rw [not_or] at hsign
    simp [scan_number, hdrop, hhead, hsign.1, hsign.2, htake, hvalue, hd]
  simp only [strtoull, hscan, Option.getD_some]
  rw [Int.natAbs_natCast, if_neg (by omega)]
  omega

theorem notMem_decimal {c : UInt8} (hc : isdigit c = false) (n : ℕ) : c ∉ decimal n := fun hmem =>
  absurd (decimal_digits n c hmem) (by simp [hc])

/-- What is printed of the header, when its name is short. -/
theorem send_file_short (f : SentFile) (hshort : (filename f.filepath).length ≤ 127) :
    send_file f.filepath f.content = literal "NETCLIP1\nFILE" ++ (10 :: (filename f.filepath
      ++ 10 :: (decimal f.content.length ++ [10]))) ++ 10 :: f.content := by
  have hdecimal := decimal_length_le f.size
  rw [send_file, snprintf, List.take_of_length_le]
  · simp [literal]
  · simp only [List.length_append, List.length_cons, List.length_nil]
    have hlen : (literal "NETCLIP1\nFILE\n").length = 14 := by decide
    omega

theorem filename_suffix (filepath : List UInt8) : filename filepath <:+ filepath := by
  unfold filename
  split
  · exact List.drop_suffix _ _
  · exact List.suffix_rfl

/-- The loop reads the header that was sent, no more and no less. -/
theorem header_loop_send (f : SentFile) (hshort : (filename f.filepath).length ≤ 127)
    (hfirst : ∀ c ∈ (filename f.filepath).head?, ¬isspace c) :
    header_loop 255 [] 0 (send_file f.filepath f.content)
      = (literal "NETCLIP1\nFILE" ++ (10 :: (filename f.filepath
          ++ 10 :: (decimal f.content.length ++ [10]))) ++ [10], f.content) := by
  obtain ⟨-, hlen, hfile, hcount⟩ := notMem_literal_file
  have hdecimal := decimal_length_le f.size
  obtain ⟨h, rest, hloop, hsplit, -, hlast, hend⟩ :=
    header_spec (send_file f.filepath f.content)
  rw [send_file_short f hshort] at hsplit
  have hname : counted 1 (filename f.filepath) = 0 :=
    counted_line f.one_line f.name_ne_nil fun cr => hfirst 13 cr (by decide)
  have hsize : counted 1 (decimal f.content.length) = 0 := by
    refine counted_line (notMem_decimal (by decide) _) (by simp [decimal, Nat.toDigits_ne_nil]) ?_
    exact fun cr => notMem_decimal (by decide) _ (List.mem_of_mem_head? cr)
  have hquiet : quiet 0 (literal "NETCLIP1\nFILE" ++ (10 :: (filename f.filepath
      ++ 10 :: (decimal f.content.length ++ [10])))) = true := by
    simp [quiet_append, hfile, hcount, quiet, count, quiet_line f.one_line, hname, hsize,
      quiet_line (notMem_decimal (c := 10) (by decide) f.content.length)]
  have hone : counted 0 (literal "NETCLIP1\nFILE" ++ (10 :: (filename f.filepath
      ++ 10 :: (decimal f.content.length ++ [10])))) = 1 := by
    rw [counted_append, hcount, ← List.singleton_append, counted_append, counted_append,
      show counted 0 [10] = 1 from rfl, hname, ← List.singleton_append, counted_append,
      show counted 0 [10] = 1 from rfl, counted_append, hsize]
    rfl
  have hloud : quiet 0 (literal "NETCLIP1\nFILE" ++ (10 :: (filename f.filepath
      ++ 10 :: (decimal f.content.length ++ [10]))) ++ [10]) = false := by
    rw [quiet_append, hone]
    exact Bool.and_false _
  have hwhole := header_eq_of_loud hsplit.symm hend hlast hquiet hloud (by
    simp only [List.length_append, List.length_cons, List.length_nil, hlen]
    omega)
  rw [hwhole, List.append_cons, List.append_right_inj] at hsplit
  rw [hloop, hwhole, hsplit]

/-- Which files arrive as they are. -/
theorem transfers_iff (f : SentFile) :
    Transfers f ↔ (filename f.filepath).length ≤ 127
      ∧ ∀ c ∈ (filename f.filepath).head?, ¬isspace c := by
  constructor
  · intro transfers
    obtain ⟨fields, -, hscan⟩ := scan_of_run (transfers (fun _ => true) fun _ => 0)
    rw [← hscan]
    exact scan_file_name fields
  · rintro ⟨hshort, hfirst⟩ malloc ready
    have hloop := header_loop_send f hshort hfirst
    have hclean : 0 ∉ filename f.filepath := fun hmem =>
      f.text ((filename_suffix f.filepath).subset hmem)
    have hdigits : 0 ∉ decimal f.content.length := notMem_decimal (by decide) _
    have htext : text_of (literal "NETCLIP1\nFILE" ++ (10 :: (filename f.filepath
        ++ 10 :: (decimal f.content.length ++ [10]))) ++ [10])
        = literal "NETCLIP1\nFILE" ++ (10 :: (filename f.filepath
          ++ 10 :: (decimal f.content.length ++ [10, 10]))) := by
      rw [← List.append_nil (literal "NETCLIP1\nFILE" ++ _ ++ [10]), text_of_append]
      · simp [text_of]
      · simp [notMem_literal_file.1, hclean, hdigits]
    have hscan : scan_file (10 :: (filename f.filepath
        ++ 10 :: (decimal f.content.length ++ [10, 10])))
        = (filename f.filepath, f.content.length) := by
      have hnewline : ∀ c ∈ [(10 : UInt8)], isspace c := by decide +kernel
      have hdrop := dropWhile_isspace hnewline f.name_ne_nil hfirst
        (10 :: (decimal f.content.length ++ [10, 10]))
      have htake := take_line (t := 10 :: (decimal f.content.length ++ [10, 10])) f.one_line hshort
        (Or.inr fun c hc => by simpa using hc.symm)
      have hskip : ∀ s, strtoull (10 :: s) = strtoull s := fun s => rfl
      rw [scan_file, ← List.singleton_append, hdrop, htake, if_neg f.name_ne_nil, List.drop_left,
        hskip, strtoull_decimal f.size (by decide)]
    rw [run_listener_file hloop htext, hscan, List.take_length]

/-- **Files arrive as they are sent, and nothing is opened outside: for which names.** -/
theorem transfer_iff (f : SentFile) (incoming : List UInt8) :
    (Transfers f ↔ (filename f.filepath).length ≤ 127
        ∧ ∀ c ∈ (filename f.filepath).head?, ¬isspace c)
      ∧ (StaysInside incoming ↔ ∀ name, Names incoming name → Harmless name) :=
  ⟨transfers_iff f, stays_inside_iff incoming⟩

/-- The file ` a` with a blank in front, which arrives as `a`. -/
def blank_in_front : SentFile where
  filepath := literal " a"
  content := []
  text := by decide
  name_ne_nil := by decide
  name_length := by decide
  one_line := by decide
  size := by decide

/-- A blank in front of a name is lost; and a peer that sends `../x` opens it. -/
theorem name_not_kept :
    ¬Transfers blank_in_front ∧ ¬StaysInside (literal "NETCLIP1\nFILE\n../x\n0\n\n") := by
  refine ⟨fun transfers => ?_, fun inside => ?_⟩
  · have hfirst := ((transfers_iff blank_in_front).mp transfers).2
    exact absurd (hfirst 32 (by decide)) (by decide)
  · have hharmless := (stays_inside_iff _).mp inside (literal "../x")
      ⟨[10], literal "\n0\n\n", by decide, ⟨by decide +kernel, (quiet_iff.1).mp (by decide)⟩,
        ⟨by decide, by decide +kernel, by decide, by decide⟩, ⟨by decide, by decide⟩,
        Or.inr (Or.inr (by decide +kernel))⟩
    exact absurd hharmless.2 (by decide)

end SysInC.Netclip
