/-
The receive loop of `httpget.c`: when it reads a response the same however it arrives in pieces.

The blank line behind the header is looked for in what one `recv` has left in `chunk`, as in a C
string. A header that ends in a later piece is therefore taken for body, and the search goes on
in what the array held before, or out of it.
-/
import SysInC.CString
import SysInC.CText

set_option autoImplicit false

namespace SysInC.Httpget

open SysInC.CString SysInC.CText

/-! ## Numbers -/

def isspace (c : UInt8) : Bool := c = 32 || (9 ≤ c && c ≤ 13)

def isdigit (c : UInt8) : Bool := 48 ≤ c && c ≤ 57

/-- Spaces, a sign and digits, of which there is one at least. -/
def scan_number (s : List UInt8) : Option ℤ :=
  let s := s.dropWhile isspace
  let digits := if s.head? = some 45 ∨ s.head? = some 43 then s.tail else s
  let value : ℕ := (digits.takeWhile isdigit).foldl (fun v c => v * 10 + (c.toNat - 48)) 0
  if digits.head?.any isdigit = true then
    some (if s.head? = some 45 then -(value : ℤ) else value)
  else none

/-- `strtoull(s, NULL, 10)`, which stops at the largest number. -/
def strtoull (s : List UInt8) : ℕ :=
  let value := (scan_number s).getD 0
  if 2 ^ 64 ≤ value.natAbs then 2 ^ 64 - 1 else (value % 2 ^ 64).toNat

/-- `sscanf(s, "HTTP/%*s %d", &status_code)`; `none` when nothing is assigned. A number that is no
`long` becomes the next one that is, and of that the low 32 bits are kept. -/
def scan_status (s : List UInt8) : Option ℤ :=
  if (literal "HTTP/").isPrefixOf s = true then
    let word := (s.drop 5).dropWhile isspace
    if word = [] then none
    else (scan_number (word.dropWhile fun c => !isspace c)).map fun v =>
      Int.bmod (max (-2 ^ 63) (min (2 ^ 63 - 1) v)) (2 ^ 32)
  else none

/-! ## The loop -/

def sizeof_chunk : ℕ := 8192

def MAX_BODY_SIZE : ℕ := 1024 * 1024

def crlf : List UInt8 := [13, 10]

/-- The blank line, with the end of the line in front of it. -/
def blank : List UInt8 := [13, 10, 13, 10]

/-- What the loop changes. `file` is what was written to `out_fp`. -/
structure receiving where
  chunk : Buf sizeof_chunk
  response_buf : Buf MAX_BODY_SIZE
  file : List UInt8
  total_received : ℕ
  is_header_done : Bool
  content_len : ℕ
  content_type : List UInt8
  location_url : List UInt8
  status_code : ℤ

/-- `strstr(chunk, needle)`. A string that does not end in the array and has no `needle` in it is
read beyond it. -/
def strstr_in {n : ℕ} (needle : List UInt8) (chunk : Buf n) : Option (Option ℕ) :=
  match strstr needle (text chunk) with
  | some body => some (some body)
  | none => if 0 ∈ chunk.val then some none else none

/-- The `len` bytes at `chunk + off`. -/
def bytes_at {n : ℕ} (chunk : Buf n) (off len : ℕ) : Option (List UInt8) :=
  if off + len ≤ n then some ((chunk.val.drop off).take len) else none

/-- What is done with the string in front of the blank line. -/
def read_header (header : List UInt8) (r : receiving) : receiving :=
  { r with
    is_header_done := true
    status_code := (scan_status header).getD r.status_code
    content_len :=
      match strcasestr (literal "Content-Length: ") header with
      | some cl => strtoull (header.drop (cl + 16))
      | none => r.content_len
    content_type :=
      match strcasestr (literal "Content-Type: ") header with
      | some ct =>
        match strstr crlf (header.drop ct) with
        | some end_ct => snprintf 128 ((header.drop (ct + 14)).take (end_ct - 14))
        | none => r.content_type
      | none => r.content_type
    location_url :=
      match strcasestr (literal "Location: ") header with
      | some loc =>
        match strstr crlf (header.drop (loc + 10)) with
        | some end_loc => snprintf 1024 ((header.drop (loc + 10)).take end_loc)
        | none => r.location_url
      | none => r.location_url }

/-- The first part of the body, which stands behind the blank line at `chunk + body`. -/
def header_turn (out_fp : Bool) (r : receiving) (body n : ℕ) : Option receiving :=
  (put r.chunk body 0).bind fun chunk =>
  let r := read_header (chunk.val.take body) { r with chunk := chunk }
  let payload_start := body + 4
  let payload_bytes := size_sub n payload_start
  (bytes_at r.chunk payload_start payload_bytes).bind fun payload =>
  if out_fp = true then
    some { r with
      file := r.file ++ payload
      total_received := r.total_received + payload_bytes }
  else
    (write r.response_buf 0 payload).bind fun response_buf =>
    some { r with
      response_buf := response_buf
      total_received := r.total_received + payload_bytes }

/-- What else was received. -/
def store_turn (out_fp : Bool) (r : receiving) (data : List UInt8) : Option receiving :=
  if out_fp = true then
    some { r with
      file := r.file ++ data
      total_received := r.total_received + data.length }
  else if r.total_received + data.length < MAX_BODY_SIZE - 1 then
    (write r.response_buf r.total_received data).bind fun response_buf =>
    some { r with
      response_buf := response_buf
      total_received := r.total_received + data.length }
  else some r

/-- The body of the loop, for the `n` bytes `data` that `recv` has put into `chunk`. `none` is an
access out of an array. -/
def recv_turn (out_fp : Bool) (r : receiving) (data : List UInt8) : Option receiving :=
  (write r.chunk 0 data).bind fun chunk =>
  let r := { r with chunk := chunk }
  if r.is_header_done = false then
    (strstr_in blank r.chunk).bind fun found =>
    match found with
    | some body => header_turn out_fp r body data.length
    | none => store_turn out_fp r data
  else store_turn out_fp r data

/-- What the arrays hold before anything is received. -/
structure memory where
  chunk : Buf sizeof_chunk
  response_buf : Buf MAX_BODY_SIZE

def memory.start (m : memory) : receiving where
  chunk := m.chunk
  response_buf := m.response_buf
  file := []
  total_received := 0
  is_header_done := false
  content_len := 0
  content_type := []
  location_url := []
  status_code := 0

/-- What is left of a response. -/
structure response where
  status_code : ℤ
  location_url : List UInt8
  content_type : List UInt8
  body : List UInt8
  deriving DecidableEq

/-- The stored body is what is in the file, or in `response_buf` in front of the NUL that is put
behind it. -/
def receiving.finish (out_fp : Bool) (r : receiving) : Option response :=
  if out_fp = true then some ⟨r.status_code, r.location_url, r.content_type, r.file⟩
  else if r.total_received < MAX_BODY_SIZE then
    some ⟨r.status_code, r.location_url, r.content_type, r.response_buf.val.take r.total_received⟩
  else none

/-- The loop, for the results of `recv` one after another. `out_fp` is whether there is a file to
write. -/
def receive (out_fp : Bool) (m : memory) (results : List (List UInt8)) : Option response :=
  (results.foldlM (recv_turn out_fp) m.start).bind (receiving.finish out_fp)

/-! ## Responses -/

/-- A header block, which is text and ends at the first blank line, and a body of any bytes. -/
structure Stream where
  header : List UInt8
  body : List UInt8
  text : 0 ∉ header
  first : strstr blank (header ++ blank) = some header.length

def Stream.bytes (r : Stream) : List UInt8 := r.header ++ blank ++ r.body

/-- The results of `recv` in which the bytes may arrive. -/
structure Cut (r : Stream) (results : List (List UInt8)) : Prop where
  flatten : results.flatten = r.bytes
  pieces : ∀ data ∈ results, data ≠ [] ∧ data.length ≤ sizeof_chunk

/-- What fits into `response_buf` of the body. -/
def body_limit : ℕ := MAX_BODY_SIZE - 2

/-- What is to be stored. A file has no limit. -/
def Stream.stored (r : Stream) (out_fp : Bool) : List UInt8 :=
  if out_fp = true then r.body else r.body.take body_limit

/-- The whole header is in the first result, with its blank line. -/
def HeaderInFirst (r : Stream) (results : List (List UInt8)) : Prop :=
  r.header.length + 4 ≤ (results.headD []).length

/-- A result that finds room behind the `kept` bytes is kept; one that does not is left out. -/
def find_room (kept data : List UInt8) : List UInt8 :=
  if kept.length + data.length < MAX_BODY_SIZE - 1 then kept ++ data else kept

/-- The results that find room make up the body, or as much of it as fits. -/
def AllFindRoom (r : Stream) (results : List (List UInt8)) : Prop :=
  results.tail.foldl find_room ((results.headD []).drop (r.header.length + 4)) =
    r.body.take body_limit

/-- The results can be read. -/
def Readable (out_fp : Bool) (r : Stream) (results : List (List UInt8)) : Prop :=
  HeaderInFirst r results ∧ (out_fp = false → AllFindRoom r results)

variable {r : Stream} {results : List (List UInt8)} {out_fp : Bool}

/-- A body that fits finds room. -/
theorem find_room_all {kept : List UInt8} {rest : List (List UInt8)}
    (fits : kept.length + rest.flatten.length < MAX_BODY_SIZE - 1) :
    rest.foldl find_room kept = kept ++ rest.flatten := by
  induction rest generalizing kept with
  | nil => exact (List.append_nil kept).symm
  | cons data rest ih =>
    rw [List.flatten_cons, List.length_append] at fits
    have room : kept.length + data.length < MAX_BODY_SIZE - 1 := by omega
    rw [List.foldl_cons, find_room, if_pos room, ih, List.flatten_cons, List.append_assoc]
    rw [List.length_append]
    omega

theorem Cut.first (cut : Cut r results) (whole : HeaderInFirst r results) :
    ∃ payload rest, results = (r.header ++ blank ++ payload) :: rest ∧
      payload ++ rest.flatten = r.body := by
  cases results with
  | nil => simp [HeaderInFirst] at whole
  | cons data rest =>
    have flatten := cut.flatten
    rw [List.flatten_cons, Stream.bytes] at flatten
    have length : (r.header ++ blank).length ≤ data.length := by
      simpa [blank, HeaderInFirst] using whole
    obtain ⟨payload, rfl⟩ : r.header ++ blank <+: data :=
      List.prefix_of_prefix_length_le ⟨r.body, flatten.symm⟩ (List.prefix_append data _) length
    rw [List.append_assoc] at flatten
    exact ⟨payload, rest, rfl, List.append_cancel_left flatten⟩

theorem allFindRoom_of_fits (cut : Cut r results) (whole : HeaderInFirst r results)
    (fits : r.body.length ≤ body_limit) : AllFindRoom r results := by
  obtain ⟨payload, rest, rfl, body⟩ := cut.first whole
  have length : (r.header ++ blank).length = r.header.length + 4 := by simp [blank]
  rw [AllFindRoom, List.headD_cons, List.tail_cons, ← length, List.drop_left,
    List.take_of_length_le fits, ← body]
  refine find_room_all ?_
  rw [← List.length_append, body]
  have limit : body_limit + 1 < MAX_BODY_SIZE := by decide
  omega

/-! ## Reading a response -/

/-- What the loop keeps of a result behind the header. -/
def grow (out_fp : Bool) (kept data : List UInt8) : List UInt8 :=
  if out_fp = true then kept ++ data else find_room kept data

/-- What is left of a response when `kept` was stored of its body. -/
def left_of (header kept : List UInt8) : response :=
  let r := read_header header (memory.start ⟨zeros _, zeros _⟩)
  ⟨r.status_code, r.location_url, r.content_type, kept⟩

/-- The header has been read, and `kept` is what was stored of the body. -/
structure Holds (out_fp : Bool) (header kept : List UInt8) (r : receiving) : Prop where
  done : r.is_header_done = true
  fields : (⟨r.status_code, r.location_url, r.content_type, kept⟩ : response) = left_of header kept
  total : r.total_received = kept.length
  file : out_fp = true → r.file = kept
  buf : out_fp = false → kept.length < MAX_BODY_SIZE - 1 ∧
    r.response_buf.val.take kept.length = kept

theorem Holds.finish {header kept : List UInt8} {r : receiving} (h : Holds out_fp header kept r) :
    r.finish out_fp = some (left_of header kept) := by
  unfold receiving.finish
  cases out_fp with
  | true =>
    rw [if_pos rfl, h.file rfl, h.fields]
  | false =>
    obtain ⟨room, stored⟩ := h.buf rfl
    have inside : r.total_received < MAX_BODY_SIZE := by
      rw [h.total]
      exact lt_of_lt_of_le room (Nat.sub_le _ _)
    rw [if_neg Bool.false_ne_true, if_pos inside, h.total, stored, h.fields]

/-- A result behind the header. -/
theorem Holds.recv_turn {header kept data : List UInt8} {r : receiving}
    (h : Holds out_fp header kept r) (piece : data.length ≤ sizeof_chunk) :
    ∃ r', recv_turn out_fp r data = some r' ∧ Holds out_fp header (grow out_fp kept data) r' := by
  obtain ⟨chunk, received, -⟩ := @write_of_le _ r.chunk 0 data (by rwa [Nat.zero_add])
  have behind : Httpget.recv_turn out_fp r data =
      store_turn out_fp { r with chunk := chunk } data := by
    simp [Httpget.recv_turn, received, h.done]
  have fields : ∀ more, (⟨r.status_code, r.location_url, r.content_type, more⟩ : response) =
      left_of header more := by
    intro more
    have same := h.fields
    simp only [left_of, response.mk.injEq] at same ⊢
    exact ⟨same.1, same.2.1, same.2.2.1, trivial⟩
  rw [behind, store_turn]
  cases out_fp with
  | true =>
    refine ⟨_, if_pos rfl, h.done, fields _, ?_, fun _ => ?_, fun h => absurd h.symm Bool.false_ne_true⟩
    · simp [grow, h.total]
    · simp [grow, h.file rfl]
  | false =>
    obtain ⟨room, stored⟩ := h.buf rfl
    rw [if_neg Bool.false_ne_true]
    dsimp only
    by_cases fits : kept.length + data.length < MAX_BODY_SIZE - 1
    · have inside : kept.length + data.length ≤ MAX_BODY_SIZE := by omega
      obtain ⟨buf, written, val⟩ := write_of_le r.response_buf data inside
      rw [h.total, if_pos fits, written, Option.bind_some]
      have grown : grow false kept data = kept ++ data := by
        rw [grow, if_neg Bool.false_ne_true, find_room, if_pos fits]
      rw [grown]
      refine ⟨_, rfl, h.done, fields _, ?_, fun h => absurd h Bool.false_ne_true, fun _ => ⟨?_, ?_⟩⟩
      · rw [List.length_append]
      · rwa [List.length_append]
      · rw [val, stored, List.take_left]
    · have grown : grow false kept data = kept := by
        rw [grow, if_neg Bool.false_ne_true, find_room, if_neg fits]
      rw [if_neg (by rwa [h.total]), grown]
      exact ⟨_, rfl, h.done, h.fields, h.total, fun h => absurd h Bool.false_ne_true,
        fun _ => ⟨room, stored⟩⟩

theorem Holds.loop {header kept : List UInt8} {rest : List (List UInt8)} {r : receiving}
    (h : Holds out_fp header kept r) (pieces : ∀ data ∈ rest, data.length ≤ sizeof_chunk) :
    ∃ r', rest.foldlM (Httpget.recv_turn out_fp) r = some r' ∧
      Holds out_fp header (rest.foldl (grow out_fp) kept) r' := by
  induction rest generalizing r kept with
  | nil => exact ⟨r, rfl, h⟩
  | cons data rest ih =>
    obtain ⟨mid, turn, holds⟩ := h.recv_turn (pieces data (.head _))
    obtain ⟨r', loop, holds'⟩ := ih holds fun x hx => pieces x (.tail _ hx)
    refine ⟨r', ?_, holds'⟩
    rw [List.foldlM_cons, turn]
    exact loop

/-- The first result, when there is a blank line to be seen in the array. -/
theorem turn_found {m : memory} {data : List UInt8} {chunk : Buf sizeof_chunk} {body : ℕ}
    (received : write m.chunk 0 data = some chunk)
    (found : strstr_in blank chunk = some (some body)) :
    recv_turn out_fp m.start data =
      header_turn out_fp { m.start with chunk := chunk } body data.length := by
  simp [recv_turn, memory.start, received, found]

theorem Stream.front_text (r : Stream) : 0 ∉ r.header ++ blank := by
  simp [blank, r.text]

/-- A result with the whole header. -/
theorem first_turn (r : Stream) (m : memory) {payload : List UInt8}
    (piece : (r.header ++ blank ++ payload).length ≤ sizeof_chunk) :
    ∃ s, recv_turn out_fp m.start (r.header ++ blank ++ payload) = some s ∧
      Holds out_fp r.header payload s := by
  have length : (r.header ++ blank).length = r.header.length + 4 := by simp [blank]
  have n_eq : (r.header ++ blank ++ payload).length = r.header.length + 4 + payload.length := by
    rw [List.length_append, length]
  have room : r.header.length + 4 + payload.length ≤ sizeof_chunk := n_eq ▸ piece
  obtain ⟨chunk, received, val⟩ := @write_of_le _ m.chunk 0 (r.header ++ blank ++ payload)
    (by rwa [Nat.zero_add])
  rw [List.take_zero, List.nil_append, List.append_assoc] at val
  have found : strstr_in blank chunk = some (some r.header.length) := by
    rw [strstr_in, CString.text, val, text_of_append r.front_text, strstr_append r.first]
  obtain ⟨cut, ended, -⟩ := @write_of_le _ chunk r.header.length [0] (by
    rw [List.length_singleton]
    omega)
  have header : cut.val.take r.header.length = r.header := by
    rw [write_take ended, val, List.append_assoc, List.append_assoc, List.take_left]
  have behind : bytes_at cut (r.header.length + 4) payload.length = some payload := by
    have kept := write_drop ended (k := r.header.length + 4) (by
      rw [List.length_singleton]
      omega)
    rw [bytes_at, if_pos room, kept, val, ← length, List.drop_left, List.take_left]
  have size : size_sub (r.header ++ blank ++ payload).length (r.header.length + 4) =
      payload.length := by
    have small : (r.header ++ blank ++ payload).length < 2 ^ 64 := lt_of_le_of_lt piece (by decide)
    rw [size_sub_of_le (by omega) small]
    omega
  rw [turn_found received found, header_turn, put, ended, Option.bind_some]
  dsimp only
  rw [header, size, read_header]
  dsimp only
  rw [behind, Option.bind_some]
  cases out_fp with
  | true => exact ⟨_, if_pos rfl, rfl, rfl, Nat.zero_add _, fun _ => rfl,
    fun h => absurd h.symm Bool.false_ne_true⟩
  | false =>
    have small : payload.length < MAX_BODY_SIZE - 1 := by
      have arrays : sizeof_chunk < MAX_BODY_SIZE - 1 := by decide
      omega
    obtain ⟨buf, written, buf_val⟩ := @write_of_le _ m.response_buf 0 payload (by omega)
    rw [if_neg Bool.false_ne_true, memory.start, written, Option.bind_some]
    refine ⟨_, rfl, rfl, rfl, Nat.zero_add _, fun h => absurd h Bool.false_ne_true,
      fun _ => ⟨small, ?_⟩⟩
    rw [buf_val, List.take_zero, List.nil_append, List.take_left]

/-- What is read of a response whose header is in the first result. -/
theorem receive_whole (cut : Cut r results) (whole : HeaderInFirst r results) (m : memory) :
    receive out_fp m results = some (left_of r.header (results.tail.foldl (grow out_fp)
      ((results.headD []).drop (r.header.length + 4)))) := by
  obtain ⟨payload, rest, rfl, -⟩ := cut.first whole
  have length : (r.header ++ blank).length = r.header.length + 4 := by simp [blank]
  obtain ⟨mid, turn, holds⟩ : ∃ s,
      recv_turn out_fp m.start (r.header ++ blank ++ payload) = some s ∧
        Holds out_fp r.header payload s := first_turn r m (cut.pieces _ (.head _)).2
  obtain ⟨last, loop, holds'⟩ := holds.loop fun data hdata => (cut.pieces data (.tail _ hdata)).2
  rw [receive, List.foldlM_cons, turn]
  refine (congrArg (Option.bind · _) loop).trans ?_
  rw [Option.bind_some, holds'.finish, List.headD_cons, List.tail_cons, ← length, List.drop_left]

/-- The front of a header has no blank line, whatever stands behind it that has no line feed. -/
theorem no_blank_in {data filler : List UInt8} (front : data <+: r.header ++ blank)
    (part : data.length < r.header.length + 4) (plain : 10 ∉ filler) :
    ¬ blank <:+: data ++ filler := by
  have none : ¬ blank <:+: data := by
    intro inside
    obtain ⟨k, found⟩ := Option.ne_none_iff_exists'.mp
      (mt strstr_eq_none_iff.mp (not_not.mpr inside))
    obtain ⟨rest, split⟩ := front
    have same := strstr_append found rest
    rw [split, r.first] at same
    have ends := strstr_add_le found
    rw [← Option.some.inj same] at ends
    have length : blank.length = 4 := rfl
    omega
  rintro ⟨before, after, split⟩
  rcases List.append_eq_append_iff.mp split with ⟨more, hdata, -⟩ | ⟨more, hblank, hfiller⟩
  · exact none ⟨before, more, hdata.symm⟩
  · -- The line feed that ends the blank line would be in the filler.
    rcases List.eq_nil_or_concat more with rfl | ⟨front, last, rfl⟩
    · exact none ⟨before, [], (List.append_nil _).trans (hblank.trans (List.append_nil _))⟩
    · have ends : last = 10 := by
        have lasts := congrArg List.getLast? hblank
        simpa [blank, eq_comm] using lasts
      exact plain (by simp [hfiller, ends])

/-- Where the header does not end in the first result, the search for its end may leave the array.
-/
theorem receive_cut (cut : Cut r results) (part : ¬ HeaderInFirst r results) :
    ∃ m, receive out_fp m results = none := by
  cases results with
  | nil =>
    have empty := congrArg List.length cut.flatten
    simp [Stream.bytes, blank] at empty
  | cons data rest =>
    have short : data.length < r.header.length + 4 := not_le.mp part
    have front : data <+: r.header ++ blank := by
      have arrives : data <+: r.bytes := ⟨rest.flatten, cut.flatten⟩
      refine List.prefix_of_prefix_length_le arrives (List.prefix_append _ _) ?_
      simp [blank, short.le]
    let filled : Buf sizeof_chunk := ⟨List.replicate sizeof_chunk 120, List.length_replicate⟩
    obtain ⟨chunk, received, val⟩ := @write_of_le _ filled 0 data
      (by simpa using (cut.pieces data (.head _)).2)
    have contents : chunk.val = data ++ List.replicate (sizeof_chunk - (0 + data.length)) 120 := by
      rw [val, List.take_zero, List.nil_append, List.drop_replicate]
    have nul : 0 ∉ chunk.val := by
      rw [contents, List.mem_append, not_or]
      exact ⟨fun h => r.front_text (front.subset h), by simp [List.mem_replicate]⟩
    have whole : text chunk = chunk.val := by
      have all := text_of_append nul []
      rw [List.append_nil] at all
      exact all.trans (List.append_nil _)
    have lost : strstr_in blank chunk = none := by
      have unseen : strstr blank (text chunk) = none := by
        rw [whole, contents]
        exact strstr_eq_none_iff.mpr
          (no_blank_in front short (by simp [List.mem_replicate]))
      rw [strstr_in, unseen]
      exact if_neg nul
    refine ⟨⟨filled, zeros _⟩, ?_⟩
    have turn : recv_turn out_fp (memory.start ⟨filled, zeros _⟩) data = none := by
      simp [recv_turn, memory.start, received, lost]
    rw [receive, List.foldlM_cons, turn]
    rfl

/-! ## However it arrives -/

theorem foldl_grow_file (kept : List UInt8) (rest : List (List UInt8)) :
    rest.foldl (grow true) kept = kept ++ rest.flatten := by
  induction rest generalizing kept with
  | nil => exact (List.append_nil kept).symm
  | cons data rest ih =>
    rw [List.foldl_cons, ih, List.flatten_cons, ← List.append_assoc]
    rfl

/-- All of the body is stored if all of it finds room, which it does in a file. -/
theorem stored_iff (cut : Cut r results) (whole : HeaderInFirst r results) :
    results.tail.foldl (grow out_fp) ((results.headD []).drop (r.header.length + 4)) =
      r.stored out_fp ↔ (out_fp = false → AllFindRoom r results) := by
  cases out_fp with
  | true =>
    obtain ⟨payload, rest, rfl, body⟩ := cut.first whole
    have length : (r.header ++ blank).length = r.header.length + 4 := by simp [blank]
    refine iff_of_true ?_ fun h => absurd h.symm Bool.false_ne_true
    rw [List.tail_cons, List.headD_cons, ← length, List.drop_left, foldl_grow_file]
    exact body
  | false => exact (imp_iff_right rfl).symm

/-- A result that begins with the whole header, and room for the body: this, in both runs, is what
it takes to read the same. -/
theorem same_however_cut_iff {s t : List (List UInt8)} (out_fp : Bool) (hs : Cut r s)
    (ht : Cut r t) :
    (∃ read : response, read.body = r.stored out_fp ∧
        ∀ m, receive out_fp m s = some read ∧ receive out_fp m t = some read) ↔
      Readable out_fp r s ∧ Readable out_fp r t := by
  constructor
  · rintro ⟨read, body, reads⟩
    have readable : ∀ {results}, Cut r results → (∀ m, receive out_fp m results = some read) →
        Readable out_fp r results := by
      intro results cut reads
      have whole : HeaderInFirst r results := by
        by_contra part
        obtain ⟨m, none⟩ : ∃ m, receive out_fp m results = none := receive_cut cut part
        exact nomatch none.symm.trans (reads m)
      refine ⟨whole, (stored_iff cut whole).mp ?_⟩
      have same := Option.some.inj
        ((receive_whole cut whole ⟨zeros _, zeros _⟩).symm.trans (reads _))
      rw [← body, ← same]
      rfl
    exact ⟨readable hs fun m => (reads m).1, readable ht fun m => (reads m).2⟩
  · rintro ⟨⟨whole_s, room_s⟩, whole_t, room_t⟩
    refine ⟨left_of r.header (r.stored out_fp), rfl, fun m => ⟨?_, ?_⟩⟩
    · rw [receive_whole hs whole_s, (stored_iff hs whole_s).mpr room_s]
    · rw [receive_whole ht whole_t, (stored_iff ht whole_t).mpr room_t]

/-- A response that greets. -/
def greeting : Stream where
  header := literal "HTTP/1.1 200 OK\r\nServer: x"
  body := literal "hello"
  text := by decide
  first := by decide

/-- In one piece, or in two that part in the body. -/
theorem same_in_two_pieces :
    ∃ read : response, read.body = literal "hello" ∧ ∀ m,
      receive false m [greeting.bytes] = some read ∧
        receive false m [greeting.bytes.take 33, greeting.bytes.drop 33] = some read := by
  have one : Cut greeting [greeting.bytes] := ⟨by decide, by decide⟩
  have two : Cut greeting [greeting.bytes.take 33, greeting.bytes.drop 33] :=
    ⟨by decide, by decide⟩
  have whole : HeaderInFirst greeting [greeting.bytes] := by
    unfold HeaderInFirst
    decide
  have whole' : HeaderInFirst greeting [greeting.bytes.take 33, greeting.bytes.drop 33] := by
    unfold HeaderInFirst
    decide
  exact (same_however_cut_iff false one two).mpr
    ⟨⟨whole, fun _ => allFindRoom_of_fits one whole (by decide)⟩,
      whole', fun _ => allFindRoom_of_fits two whole' (by decide)⟩

/-- The same response in two pieces that part in the header: the first piece is taken for body, and
there is no status. -/
theorem header_in_two_pieces :
    ¬ ∀ (r : Stream) (out_fp : Bool) (s t : List (List UInt8)) (m : memory), Cut r s → Cut r t →
      ∃ read : response, read.body = r.stored out_fp ∧ receive out_fp m s = some read ∧
        receive out_fp m t = some read := by
  intro same
  have one : Cut greeting [greeting.bytes] := ⟨by decide, by decide⟩
  have two : Cut greeting [greeting.bytes.take 17, greeting.bytes.drop 17] :=
    ⟨by decide, by decide⟩
  obtain ⟨read, body, -, reads⟩ := same greeting true _ _ ⟨zeros _, zeros _⟩ one two
  have stored : receive true ⟨zeros _, zeros _⟩ [greeting.bytes.take 17, greeting.bytes.drop 17] =
      some ⟨0, [], [], greeting.bytes.take 17 ++ literal "hello"⟩ := by
    decide
  obtain rfl := Option.some.inj (stored.symm.trans reads)
  exact absurd body (by decide)

end SysInC.Httpget
