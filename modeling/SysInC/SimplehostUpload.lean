/-
Uploads to `simplehost`, `handle_multipart_upload` of security.c.

The file part begins behind the second blank line of the first read, and its end is found by
cutting as many bytes from the file as a closing delimiter has that is as long as the word read
for the boundary and ends its line. The cut is made through the descriptor while the stream still
holds what it has not passed on; so it stays only where nothing waits in the buffer, and it is not
made at all where the content is empty. `upload_kept_iff` says when the file is what was uploaded, for
every way the library buffers and every way the request arrives.
-/
import Mathlib.Data.UInt
import SysInC.Httpget
import SysInC.StdioFile

set_option autoImplicit false

namespace SysInC.SimplehostUpload

open CText StdioFile
open CString (text_of text_of_append zero_notMem_text_of size_sub size_sub_of_le)
open Httpget (isspace isdigit strtoull crlf blank)

/-! ## `handle_multipart_upload` -/

def MAX_UPLOAD_SIZE : ℕ := 100 * 1024 * 1024

def CHUNK_SIZE : ℕ := 65536

/-- `sizeof(header_buf)` of the caller, which reads one byte less. -/
def sizeof_header_buf : ℕ := 4096

/-- What the function finds around it: whether a path can be opened for writing, what `%ld` prints
of the time, and how the library buffers. -/
structure Host where
  g_www_root : List UInt8
  fopen : List UInt8 → Bool
  time : List UInt8
  out : Buffering

/-- `boundary`, if the header has one. -/
def boundary_word (header : List UInt8) : Option (List UInt8) := do
  let ct ← strcasestr (literal "Content-Type: multipart/form-data;") header
  let ct_str := header.drop ct
  let boundary_str ← strcasestr (literal "boundary=") ct_str
  let word := (ct_str.drop (boundary_str + 9)).dropWhile isspace
  let boundary := (word.takeWhile fun c => !isspace c).take 127
  return (boundary.takeWhile (· ≠ 59)).takeWhile (· ≠ 13)

/-- `content_len` -/
def content_length (header : List UInt8) : ℕ :=
  match strcasestr (literal "Content-Length: ") header with
  | some cl => strtoull (header.drop (cl + 16))
  | none => 0

def isalnum (c : UInt8) : Bool := 48 ≤ c ∧ c ≤ 57 ∨ 65 ≤ c ∧ c ≤ 90 ∨ 97 ≤ c ∧ c ≤ 122

/-- `safe_filename` -/
def safe_filename (body_start : List UInt8) : List UInt8 :=
  match strcasestr (literal "filename=\"") body_start with
  | none => literal "upload.bin"
  | some fn =>
    let fn_ptr := body_start.drop (fn + 10)
    if 34 ∈ fn_ptr then (fn_ptr.takeWhile (· ≠ 34)).take 127 else literal "upload.bin"

def save_path (h : Host) (body_start : List UInt8) : List UInt8 :=
  let clean_name := ((safe_filename body_start).filter fun c =>
    isalnum c ∨ c = 46 ∨ c = 95 ∨ c = 45).take 127
  let clean_name := if clean_name = [] then
    snprintf 128 (literal "upload_" ++ h.time ++ literal ".bin") else clean_name
  snprintf 1024 (h.g_www_root ++ literal "/uploads/" ++ clean_name)

/-- The receive loop. `results` is what `recv` returns one after the other; behind them it returns
no byte. -/
def recv_loop (out : Buffering) : List (List UInt8) → ℕ → Stream UInt8 → Stream UInt8
  | [], _, out_fp => out_fp
  | chunk :: results, remaining, out_fp =>
    if remaining = 0 ∨ chunk = [] then out_fp
    else recv_loop out results (size_sub remaining chunk.length) (out_fp.fwrite out chunk)

/-- The file that was saved. -/
structure saved where
  path : List UInt8
  data : List UInt8

/-- `header_buf` are the bytes of the first read, behind which the caller puts a NUL. -/
def handle_multipart_upload (h : Host) (header_buf : List UInt8) (results : List (List UInt8)) :
    Option saved := do
  let header := text_of header_buf
  let boundary ← boundary_word header
  let content_len := content_length header
  if content_len = 0 ∨ MAX_UPLOAD_SIZE < content_len then none
  else
    let body ← strstr blank header
    let headers_sz := body + 4
    let body_start := header.drop headers_sz
    let body_in_mem := size_sub header_buf.length headers_sz
    let data ← strstr blank body_start
    let part_hdr_sz := data + 4
    let raw_data_len := size_sub body_in_mem part_hdr_sz
    let data_start := header_buf.drop (headers_sz + part_hdr_sz)
    if h.fopen (save_path h body_start) = false then none
    else
      let out_fp := opened.fwrite h.out (data_start.take raw_data_len)
      let out_fp := recv_loop h.out results (size_sub content_len body_in_mem) out_fp
      let fsize := out_fp.ftell
      let boundary_trail_len := boundary.length + 8
      let out_fp := if boundary_trail_len < fsize
        then out_fp.truncate (fsize - boundary_trail_len) else out_fp
      return ⟨save_path h body_start, out_fp.fclose⟩

/-! ## Requests -/

/-- A line of a header, without its end. -/
def Line (l : List UInt8) : Prop := l ≠ [] ∧ 0 ∉ l ∧ 13 ∉ l ∧ 10 ∉ l

instance (l : List UInt8) : Decidable (Line l) := inferInstanceAs (Decidable (_ ∧ _))

/-- Lines and the blank line behind them. -/
def block (lines : List (List UInt8)) : List UInt8 := lines.flatMap (· ++ crlf) ++ crlf

/-- A request with one part: its header lines, the boundary, the header lines of the part, the
content and what stands behind the closing delimiter, which is the end of its line as a rule. -/
structure Upload where
  head : List (List UInt8)
  boundary : List UInt8
  part : List (List UInt8)
  content : List UInt8
  epilogue : List UInt8
  head_ne : head ≠ []
  head_lines : ∀ l ∈ head, Line l
  boundary_line : Line boundary
  part_lines : ∀ l ∈ part, Line l

def Upload.delimiter (u : Upload) : List UInt8 := 45 :: 45 :: u.boundary

def Upload.part_header (u : Upload) : List UInt8 := block (u.delimiter :: u.part)

def Upload.front (u : Upload) : List UInt8 := block u.head ++ u.part_header

def Upload.trailer (u : Upload) : List UInt8 := crlf ++ u.delimiter ++ [45, 45] ++ u.epilogue

def Upload.bytes (u : Upload) : List UInt8 := u.front ++ (u.content ++ u.trailer)

/-- The results of `recv` in which the request arrives. The first one is the caller's and has all
headers. -/
structure Arrives (u : Upload) (first : List UInt8) (results : List (List UInt8)) : Prop where
  flatten : first ++ results.flatten = u.bytes
  headers : u.front.length ≤ first.length
  room : first.length < sizeof_header_buf
  pieces : ∀ chunk ∈ results, chunk ≠ [] ∧ chunk.length ≤ CHUNK_SIZE

/-! ## The claim -/

/-- An upload that is reported as done is stored as it is. -/
def Stored (h : Host) (u : Upload) (first : List UInt8) (results : List (List UInt8)) : Prop :=
  ∀ file, handle_multipart_upload h first results = some file → file.data = u.content

/-- The header names a boundary and a length within the limit, and the file can be opened. -/
structure Admitted (h : Host) (u : Upload) (first : List UInt8) : Prop where
  boundary : (boundary_word (text_of first)).isSome
  length : content_length (text_of first) ≠ 0 ∧ content_length (text_of first) ≤ MAX_UPLOAD_SIZE
  opens : h.fopen (save_path h ((text_of first).drop (block u.head).length)) = true

/-- What the loop takes until nothing is missing, all in all. -/
def taken : ℕ → List (List UInt8) → List (List UInt8)
  | _, [] => []
  | remaining, chunk :: results =>
    if remaining = 0 ∨ chunk = [] then []
    else chunk :: taken (size_sub remaining chunk.length) results

/-- The writes. -/
def writes (u : Upload) (first : List UInt8) (results : List (List UInt8)) : List (List UInt8) :=
  first.drop u.front.length :: taken (size_sub (content_length (text_of first))
    (first.length - (block u.head).length)) results

/-- `written` bytes have been written and `passed` of them passed on, and a trailer of `trail` is
cut. Either it is the trailer, and nothing waits; or the loop has stopped at the end of the
content, and no cut is made or it is undone. -/
def Exact (content : List UInt8) (written passed trail : ℕ) : Prop :=
  (passed = written ∧ trail < written ∧ written = content.length + trail)
  ∨ written = content.length ∧ (written ≤ trail
    ∨ passed < written ∧ ∀ c ∈ (content.take passed).drop (written - trail), c = 0)

/-- The length of the trailer that is cut. -/
def trail (first : List UInt8) : ℕ := ((boundary_word (text_of first)).getD []).length + 8

/-! ## The headers -/

variable {h : Host} {u : Upload} {first : List UInt8} {results : List (List UInt8)}

theorem strstr_line {l : List UInt8} (hl : 13 ∉ l) (s : List UInt8) :
    strstr blank (l ++ s) = (strstr blank s).map (· + l.length) := by
  induction l with
  | nil => simp
  | cons c l ih =>
      rw [List.mem_cons, not_or] at hl
      have hhere : ¬blank.isPrefixOf (c :: (l ++ s)) = true := by
        rw [List.isPrefixOf_iff_prefix, blank, List.cons_prefix_cons]
        exact fun h => hl.1 h.1
      rw [List.cons_append, strstr, if_neg hhere, ih hl.2, Option.map_map]
      rfl

theorem block_cons (l : List UInt8) (lines : List (List UInt8)) :
    block (l :: lines) = l ++ (crlf ++ block lines) := by
  simp [block]

theorem four_le_block {lines : List (List UInt8)} (hne : lines ≠ []) :
    4 ≤ (block lines).length := by
  cases lines with
  | nil => exact absurd rfl hne
  | cons l lines =>
      simp [block, crlf]
      omega

/-- The end of a line with another one behind it is no blank line. -/
theorem strstr_crlf {c : UInt8} (hc : c ≠ 13) (s : List UInt8) :
    strstr blank (crlf ++ c :: s) = (strstr blank (c :: s)).map (· + 2) := by
  have hhere : ¬blank.isPrefixOf (13 :: 10 :: c :: s) = true := by
    rw [List.isPrefixOf_iff_prefix]
    simp [blank, Ne.symm hc]
  have hnext := strstr_line (l := [10]) (by decide) (c :: s)
  rw [List.singleton_append] at hnext
  rw [crlf, List.cons_append, List.cons_append, List.nil_append, strstr, if_neg hhere, hnext,
    Option.map_map]
  rfl

/-- The blank line behind a header is the first one. -/
theorem strstr_block {lines : List (List UInt8)} (hne : lines ≠ []) (hlines : ∀ l ∈ lines, Line l)
    (rest : List UInt8) : strstr blank (block lines ++ rest) = some ((block lines).length - 4) := by
  induction lines with
  | nil => exact absurd rfl hne
  | cons l lines ih =>
      rw [List.forall_mem_cons] at hlines
      rw [block_cons, List.append_assoc, strstr_line hlines.1.2.2.1]
      cases lines with
      | nil => simp [block, crlf, blank, strstr]
      | cons l' lines =>
          have hnext := ih (by simp) hlines.2
          have hfour := four_le_block (List.cons_ne_nil l' lines)
          have hline := hlines.2 l' List.mem_cons_self
          obtain ⟨c, t, hc, hblock⟩ : ∃ c t, c ≠ 13 ∧ block (l' :: lines) ++ rest = c :: t := by
            cases l' with
            | nil => exact absurd rfl hline.1
            | cons c l' =>
                refine ⟨c, _, ?_, by rw [block_cons, List.cons_append, List.cons_append]⟩
                rintro rfl
                exact hline.2.2.1 List.mem_cons_self
          rw [hblock] at hnext
          rw [List.append_assoc, hblock, strstr_crlf hc, hnext, Option.map_some, Option.map_some,
            List.length_append, List.length_append]
          simp only [crlf, List.length_cons, List.length_nil, Option.some.injEq]
          omega

theorem zero_notMem_block {lines : List (List UInt8)} (hlines : ∀ l ∈ lines, Line l) :
    0 ∉ block lines := by
  rw [block, List.mem_append, List.mem_flatMap, not_or]
  refine ⟨?_, by decide⟩
  rintro ⟨l, hl, hmem⟩
  rcases List.mem_append.mp hmem with hmem | hmem
  · exact (hlines l hl).2.1 hmem
  · exact absurd hmem (by decide)

theorem delimiter_line (u : Upload) : Line u.delimiter := by
  obtain ⟨-, h0, h13, h10⟩ := u.boundary_line
  simp [Line, Upload.delimiter, h0, h13, h10]

theorem part_header_lines (u : Upload) : ∀ l ∈ u.delimiter :: u.part, Line l :=
  List.forall_mem_cons.mpr ⟨delimiter_line u, u.part_lines⟩

/-- The first read, and what of it is text. -/
theorem Arrives.split (arr : Arrives u first results) :
    first = u.front ++ first.drop u.front.length
      ∧ first.drop u.front.length ++ results.flatten = u.content ++ u.trailer
      ∧ text_of first = block u.head ++ (u.part_header ++ text_of (first.drop u.front.length)) := by
  obtain ⟨rest, hrest⟩ : u.front <+: first :=
    List.prefix_of_prefix_length_le ⟨_, rfl⟩ ⟨results.flatten, arr.flatten⟩ arr.headers
  have hdrop : first.drop u.front.length = rest := by rw [← hrest, List.drop_left]
  have htext : 0 ∉ u.front := by
    rw [Upload.front, List.mem_append, not_or]
    exact ⟨zero_notMem_block u.head_lines, zero_notMem_block (part_header_lines u)⟩
  rw [hdrop]
  refine ⟨hrest.symm, ?_, ?_⟩
  · have hall := arr.flatten
    rw [← hrest, Upload.bytes, List.append_assoc] at hall
    exact List.append_cancel_left hall
  · rw [← hrest, text_of_append htext, Upload.front, List.append_assoc]

/-! ## What is written -/

theorem recv_loop_eq (out : Buffering) (results : List (List UInt8)) (remaining : ℕ)
    (s : Stream UInt8) : recv_loop out results remaining s
      = (taken remaining results).foldl (Stream.fwrite out) s := by
  induction results generalizing remaining s with
  | nil => rfl
  | cons chunk results ih =>
      rw [recv_loop, taken]
      split
      · rfl
      · rw [ih]
        rfl

theorem taken_flatten (remaining : ℕ) (results : List (List UInt8)) :
    (taken remaining results).flatten <+: results.flatten := by
  induction results generalizing remaining with
  | nil => exact List.prefix_rfl
  | cons chunk results ih =>
      rw [taken]
      split
      · exact List.nil_prefix
      · rw [List.flatten_cons, List.flatten_cons]
        exact (List.prefix_append_right_inj chunk).mpr (ih _)

/-- What is written is the content and what follows it, as far as it is taken. -/
theorem writes_head (arr : Arrives u first results) :
    (writes u first results).flatten <+: u.content ++ u.trailer := by
  rw [writes, List.flatten_cons, ← arr.split.2.1]
  exact (List.prefix_append_right_inj _).mpr (taken_flatten _ _)

/-- The bytes that have been passed on when the file is cut. -/
def passed_on (h : Host) (u : Upload) (first : List UInt8) (results : List (List UInt8)) : ℕ :=
  passed h.out 0 0 ((writes u first results).map List.length)

theorem not_admitted (hno : ¬Admitted h u first) (arr : Arrives u first results) :
    handle_multipart_upload h first results = none := by
  obtain ⟨-, -, htext⟩ := arr.split
  have hbody : strstr blank (text_of first) = some ((block u.head).length - 4) := by
    rw [htext]
    exact strstr_block u.head_ne u.head_lines _
  have hfour := four_le_block u.head_ne
  rw [handle_multipart_upload]
  cases hword : boundary_word (text_of first) with
  | none => rfl
  | some boundary =>
      dsimp only [bind, Option.bind]
      split
      · rfl
      · next hlen =>
        rw [hbody]
        dsimp only
        split
        · rfl
        · rw [Nat.sub_add_cancel hfour]
          refine if_pos ?_
          rw [← Bool.not_eq_true]
          rw [not_or, Nat.not_lt] at hlen
          exact fun hopens => hno ⟨by rw [hword]; rfl, hlen, hopens⟩

/-- The file that is left. -/
theorem admitted (hyes : Admitted h u first) (arr : Arrives u first results) :
    ∃ s : Stream UInt8, s.Holds (writes u first results).flatten (passed_on h u first results)
      ∧ handle_multipart_upload h first results
        = some ⟨save_path h ((text_of first).drop (block u.head).length),
          (if trail first < s.ftell then s.truncate (s.ftell - trail first) else s).fclose⟩ := by
  obtain ⟨hfront, -, htext⟩ := arr.split
  have hbody : strstr blank (text_of first) = some ((block u.head).length - 4) := by
    rw [htext]
    exact strstr_block u.head_ne u.head_lines _
  have hdata : strstr blank ((text_of first).drop (block u.head).length)
      = some (u.part_header.length - 4) := by
    rw [htext, List.drop_left]
    exact strstr_block (by simp) (part_header_lines u) _
  have hfour := four_le_block u.head_ne
  have hfour' : 4 ≤ u.part_header.length := four_le_block (by simp)
  have hroom := arr.room
  have hheaders := arr.headers
  rw [Upload.front, List.length_append] at hheaders
  rw [sizeof_header_buf] at hroom
  have hsize : size_sub first.length (block u.head).length
      = first.length - (block u.head).length := size_sub_of_le (by omega) (by omega)
  have hsize' : size_sub (first.length - (block u.head).length) u.part_header.length
      = first.length - u.front.length := by
    rw [size_sub_of_le (by omega) (by omega), Upload.front, List.length_append]
    omega
  have hrest : (first.drop u.front.length).take (first.length - u.front.length)
      = first.drop u.front.length := List.take_of_length_le (by rw [List.length_drop])
  obtain ⟨boundary, hword⟩ := Option.isSome_iff_exists.mp hyes.boundary
  have hlen : ¬(content_length (text_of first) = 0
      ∨ MAX_UPLOAD_SIZE < content_length (text_of first)) := by
    rw [not_or, Nat.not_lt]
    exact hyes.length
  have hwritten := holds_opened.writes h.out (writes u first results)
  refine ⟨_, hwritten, ?_⟩
  rw [handle_multipart_upload, hword]
  dsimp only [bind, Option.bind]
  rw [if_neg hlen, hbody]
  dsimp only
  rw [Nat.sub_add_cancel hfour, hdata]
  dsimp only
  rw [Nat.sub_add_cancel hfour', if_neg (by rw [hyes.opens]; decide), hsize, hsize',
    ← List.length_append, ← Upload.front, hrest, recv_loop_eq, trail, hword]
  rfl

/-! ## What is stored -/

section Cut

variable {s : Stream UInt8} {all content tail : List UInt8} {offset n : ℕ}

/-- What was written is the content where it is as long. -/
theorem eq_content_of_length (hall : all <+: content ++ tail) (hlen : all.length = content.length) :
    all = content := by
  obtain ⟨rest, hrest⟩ := hall
  have h := List.append_inj hrest hlen
  exact h.1

theorem zeros_inside {content : List UInt8} {n offset : ℕ} (hn : offset ≤ content.length) :
    content.take (min n offset) ++ List.replicate (offset - n) 0 ++ content.drop offset = content
      ↔ ∀ c ∈ (content.take offset).drop n, c = 0 := by
  have hmiddle : ((content.take offset).drop n).length = offset - n := by
    rw [List.length_drop, List.length_take, Nat.min_eq_left hn]
  have hsplit : content
      = content.take (min n offset) ++ (content.take offset).drop n ++ content.drop offset := by
    rw [← List.take_take, List.take_append_drop, List.take_append_drop]
  constructor
  · intro h
    have hsame := List.append_cancel_left (List.append_cancel_right (h.trans hsplit))
    rw [← hsame]
    exact fun c hc => List.eq_of_mem_replicate hc
  · intro h
    have hzeros := List.eq_replicate_of_mem h
    rw [hmiddle] at hzeros
    rw [← hzeros, ← hsplit]

/-- The file is the content in exactly these cases. -/
theorem closed_iff (h : s.Holds all offset) (hall : all <+: content ++ tail) (hn : 0 < n) :
    (if n < s.ftell then s.truncate (s.ftell - n) else s).fclose = content
      ↔ Exact content all.length offset n := by
  rw [h.ftell, Exact]
  have hle := h.le
  by_cases hcut : n < all.length
  · rw [if_pos hcut]
    rcases hle.lt_or_eq with hwaiting | hdrained
    · rw [h.close_waiting (by omega) hwaiting]
      constructor
      · intro heq
        have hlen := congrArg List.length heq
        simp only [List.length_append, List.length_take, List.length_replicate,
          List.length_drop] at hlen
        have hsame : all.length = content.length := by omega
        obtain rfl := eq_content_of_length hall hsame
        exact Or.inr ⟨rfl, Or.inr ⟨hwaiting, (zeros_inside hle).mp heq⟩⟩
      · rintro (⟨hpassed, -, -⟩ | ⟨hsame, hshort | ⟨-, hzeros⟩⟩)
        · omega
        · omega
        · obtain rfl := eq_content_of_length hall hsame
          exact (zeros_inside hle).mpr hzeros
    · rw [h.close_drained (by omega) hdrained]
      constructor
      · intro heq
        have hlen := congrArg List.length heq
        rw [List.length_take] at hlen
        exact Or.inl ⟨hdrained, hcut, by omega⟩
      · rintro (⟨-, -, hlen⟩ | ⟨hsame, hshort | ⟨hwaiting, -⟩⟩)
        · have htake : all.length - n = content.length := by omega
          obtain ⟨rest, hrest⟩ := hall
          have hfront := congrArg (List.take content.length) hrest
          rw [List.take_left, List.take_append_of_le_length (by omega)] at hfront
          rw [htake, hfront]
        · omega
        · omega
  · rw [if_neg hcut, h.close]
    constructor
    · rintro rfl
      exact Or.inr ⟨rfl, Or.inl (Nat.le_of_not_lt hcut)⟩
    · rintro (⟨-, hlt, -⟩ | ⟨hsame, -⟩)
      · exact absurd hlt hcut
      · exact eq_content_of_length hall hsame

end Cut

/-- **When an upload is stored as it is.** -/
theorem upload_kept_iff (h : Host) (arr : Arrives u first results) :
    Stored h u first results ↔ ¬Admitted h u first
      ∨ Exact u.content (writes u first results).flatten.length (passed_on h u first results)
        (trail first) := by
  by_cases hyes : Admitted h u first
  · obtain ⟨s, hholds, hfile⟩ := admitted hyes arr
    have hclosed := closed_iff (n := trail first) hholds (writes_head arr) (Nat.succ_pos _)
    rw [← hclosed, or_iff_right (not_not_intro hyes)]
    constructor
    · exact fun hstored => hstored _ hfile
    · intro heq file hsome
      rw [hfile] at hsome
      obtain rfl := Option.some.inj hsome
      exact heq
  · refine iff_of_true (fun file hsome => ?_) (Or.inl hyes)
    rw [not_admitted hyes arr] at hsome
    cases hsome

/-! ### The length that is announced -/

theorem taken_all {remaining : ℕ} (hlen : remaining = results.flatten.length)
    (hsmall : remaining < 2 ^ 64) (hpieces : ∀ chunk ∈ results, chunk ≠ []) :
    taken remaining results = results := by
  induction results generalizing remaining with
  | nil => rfl
  | cons chunk results ih =>
      rw [List.forall_mem_cons] at hpieces
      rw [List.flatten_cons, List.length_append] at hlen
      have hpos := List.length_pos_iff.mpr hpieces.1
      have hnext : size_sub remaining chunk.length = results.flatten.length := by
        rw [size_sub_of_le (by omega) hsmall]
        omega
      rw [taken, if_neg (by simp only [hpieces.1, or_false]; omega), ih hnext (by omega) hpieces.2]

/-- Where the length in the header is that of the body, all of it is written: the upload is stored
as it is where nothing waits, there is a content and the trailer is of the length that is cut. -/
theorem exact_announced (arr : Arrives u first results)
    (hlen : content_length (text_of first) = (u.part_header ++ (u.content ++ u.trailer)).length)
    (hlimit : content_length (text_of first) ≤ MAX_UPLOAD_SIZE) :
    Exact u.content (writes u first results).flatten.length (passed_on h u first results)
        (trail first)
      ↔ passed_on h u first results = u.content.length + u.trailer.length
        ∧ u.content ≠ [] ∧ trail first = u.trailer.length := by
  obtain ⟨hfront, hrest, -⟩ := arr.split
  have htotal := congrArg List.length arr.flatten
  have hheaders := arr.headers
  simp only [Upload.bytes, Upload.front, List.length_append] at htotal hheaders hlen
  have hsub : size_sub (content_length (text_of first)) (first.length - (block u.head).length)
      = results.flatten.length := by
    rw [size_sub_of_le]
    · omega
    · omega
    · rw [MAX_UPLOAD_SIZE] at hlimit
      omega
  have hwritten : (writes u first results).flatten = u.content ++ u.trailer := by
    rw [writes, taken_all hsub, List.flatten_cons, hrest]
    · rw [hsub, MAX_UPLOAD_SIZE] at *
      omega
    · exact fun chunk hmem => (arr.pieces chunk hmem).1
  have hpos : 0 < u.trailer.length := by simp [Upload.trailer, crlf]
  rw [hwritten, List.length_append, Exact, ← List.length_pos_iff]
  constructor
  · rintro (⟨hpassed, hlt, heq⟩ | ⟨hsame, -⟩)
    · exact ⟨hpassed, by omega, by omega⟩
    · omega
  · rintro ⟨hpassed, hne, heq⟩
    exact Or.inl ⟨hpassed, by omega, by omega⟩

/-! ### A small file -/

/-- A buffer of `size` bytes, from which whole blocks are passed on when it is full. -/
def full_buffer (size : ℕ) : Buffering := fun _ pending n =>
  if pending + n ≤ size then 0 else pending + n - (pending + n) % size

def small_host : Host where
  g_www_root := literal "/root/simplehost_www"
  fopen := fun _ => true
  time := literal "0"
  out := full_buffer 4096

/-- The file `a` with the text `hi`. -/
def small_upload : Upload where
  head := [literal "POST /upload HTTP/1.1",
    literal "Content-Type: multipart/form-data; boundary=x", literal "Content-Length: 74"]
  boundary := literal "x"
  part := [literal "Content-Disposition: form-data; name=\"f\"; filename=\"a\""]
  content := literal "hi"
  epilogue := crlf
  head_ne := by simp
  head_lines := by decide
  boundary_line := by decide
  part_lines := by decide

theorem small_upload_arrives : Arrives small_upload small_upload.bytes [] where
  flatten := by simp
  headers := by simp [Upload.bytes]
  room := by decide +kernel
  pieces := by simp

theorem small_upload_iff :
    Stored small_host small_upload small_upload.bytes []
      ↔ ¬Admitted small_host small_upload small_upload.bytes
        ∨ Exact small_upload.content (writes small_upload small_upload.bytes []).flatten.length
          (passed_on small_host small_upload small_upload.bytes []) (trail small_upload.bytes) :=
  upload_kept_iff small_host small_upload_arrives

/-- The file is cut while nothing of it is on the disk. -/
theorem small_upload_not_stored :
    Arrives small_upload small_upload.bytes []
      ∧ ¬Stored small_host small_upload small_upload.bytes [] := by
  refine ⟨small_upload_arrives, fun hstored => ?_⟩
  have hfile : (handle_multipart_upload small_host small_upload.bytes []).map saved.data
      = some (small_upload.content ++ small_upload.trailer) := by decide +kernel
  obtain ⟨file, hsome, hdata⟩ := Option.map_eq_some_iff.mp hfile
  have hcontent := hstored file hsome
  rw [hdata] at hcontent
  exact absurd hcontent (by decide)

end SysInC.SimplehostUpload
