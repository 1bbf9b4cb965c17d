/-
Range requests to `simplehost`: the part of `client_handler_thread` that serves a file.

The header is read with `sscanf("%lld-%lld")`, which is no reader of byte ranges: a suffix is
taken for a negative first position, a last position that is 0 for none, a header that it cannot
read for a range over everything, and of several ranges it sees the first. It also reads over
the end of the line. `byte_ranges` is the reader that the rules of HTTP have, and
`range_served_iff` says on which headers the two agree as far as the answer goes.
-/
import SysInC.Delimited
import SysInC.Httpget
import Mathlib.Data.List.TakeWhile

set_option autoImplicit false

namespace SysInC.SimplehostRange

open CText
open Httpget (isspace isdigit scan_number)

/-! ## The source -/

/-- What is left behind the number that `scan_number` reads. -/
def behind_number (s : List UInt8) : List UInt8 :=
  let s := s.dropWhile isspace
  (if s.head? = some 45 ∨ s.head? = some 43 then s.tail else s).dropWhile isdigit

/-- The next `long long`. -/
def to_lld (v : ℤ) : ℤ := max (-2 ^ 63) (min (2 ^ 63 - 1) v)

/-- `%lld`: a number, and what is left behind it. -/
def scan_lld (s : List UInt8) : Option (ℤ × List UInt8) :=
  (scan_number s).map fun v => (to_lld v, behind_number s)

/-- `sscanf(range_hdr, "%lld-%lld", &range_start, &range_end)` -/
def sscanf_range (range_hdr : List UInt8) (range_start range_end : ℤ) : ℤ × ℤ :=
  match scan_lld range_hdr with
  | none => (range_start, range_end)
  | some (first, rest) =>
    if rest.head? = some 45 then
      match scan_lld rest.tail with
      | none => (first, range_end)
      | some (last, _) => (first, last)
    else (first, range_end)

def range_name : List UInt8 := literal "Range: bytes="

/-- `range_start` and `range_end` where `is_partial` is set. -/
def read_range (header_buf : List UInt8) (st_size : ℤ) : Option (ℤ × ℤ) :=
  match strcasestr range_name header_buf with
  | none => none
  | some k =>
    let (range_start, range_end) := sscanf_range (header_buf.drop (k + 13)) 0 (st_size - 1)
    let range_end := if st_size ≤ range_end ∨ range_end = 0 then st_size - 1 else range_end
    if range_start ≤ range_end then some (range_start, range_end) else none

def CHUNK_SIZE : ℕ := 65536

/-- The loop that sends `left` bytes of what is left of the file. -/
def send_chunks (file : List UInt8) (left : ℕ) : List UInt8 :=
  if _done : left = 0 then []
  else
    let chunk := file.take (min CHUNK_SIZE left)
    if _stopped : chunk = [] then []
    else chunk ++ send_chunks (file.drop chunk.length) (left - chunk.length)
termination_by left
decreasing_by
  exact Nat.sub_lt (Nat.pos_of_ne_zero _done) (List.length_pos_iff.mpr _stopped)

/-- The answer, with the numbers that its header prints. -/
structure response where
  status : ℕ
  content_range : Option (ℤ × ℤ × ℤ)
  content_length : ℕ
  body : List UInt8

/-- A regular file is served. `lseek` to a position in front of the file fails and leaves the
position at its start. -/
def serve_file (header_buf file : List UInt8) : response :=
  let st_size : ℤ := file.length
  match read_range header_buf st_size with
  | some (range_start, range_end) =>
    let bytes_to_send := ((range_end - range_start + 1) % 2 ^ 64).toNat
    { status := 206
      content_range := some (range_start, range_end, st_size)
      content_length := bytes_to_send
      body := send_chunks (file.drop (if range_start < 0 then 0 else range_start.toNat))
        bytes_to_send }
  | none =>
    { status := 200
      content_range := none
      content_length := file.length
      body := send_chunks file file.length }

/-! ## The rules of HTTP -/

/-- A range of bytes: from a position, up to another one or the end, or the last `length`
bytes. -/
inductive byte_range where
  | span (first : ℕ) (last : Option ℕ)
  | suffix (length : ℕ)
  deriving DecidableEq

/-- The range asks for the byte at position `i` of a file of this size. -/
def byte_range.Asks (size i : ℕ) : byte_range → Prop
  | .span first last => i < size ∧ first ≤ i ∧ ∀ b ∈ last, i ≤ b
  | .suffix length => i < size ∧ size ≤ i + length

def number (digits : List UInt8) : ℕ := digits.foldl (fun v c => v * 10 + (c.toNat - 48)) 0

/-- One range. A last position in front of the first makes the header invalid. -/
def byte_range_of (text : List UInt8) : Option byte_range :=
  let first := text.takeWhile isdigit
  match text.dropWhile isdigit with
  | 45 :: last =>
    if last.all isdigit = true then
      if first = [] then if last = [] then none else some (.suffix (number last))
      else if last = [] then some (.span (number first) none)
      else if number first ≤ number last then some (.span (number first) (some (number last)))
      else none
    else none
  | _ => none

/-- The blanks that may stand around a range. -/
def is_ows (c : UInt8) : Bool := c = 32 || c = 9

def trim (text : List UInt8) : List UInt8 :=
  ((text.dropWhile is_ows).reverse.dropWhile is_ows).reverse

/-- The ranges of a header, separated by commas; `none` is an invalid header. -/
def byte_ranges (value : List UInt8) : Option (List byte_range) :=
  (value.splitOn 44).mapM fun text => byte_range_of (trim text)

/-- The header asks for the bytes from `first` to `last`, and for no others. -/
def AsksFor (value : List UInt8) (size first last : ℕ) : Prop :=
  ∃ rs, byte_ranges value = some rs ∧ ∀ i, (∃ r ∈ rs, r.Asks size i) ↔ first ≤ i ∧ i ≤ last

/-! ## The claim -/

/-- A request whose `Range` header has this value; behind it the line ends. -/
structure RangeRequest (lead value behind : List UInt8) : Prop where
  first : strcasestr range_name (lead ++ range_name ++ value ++ behind) = some lead.length
  line : ∀ c ∈ value, c ≠ 13 ∧ c ≠ 10
  line_end : ∀ c ∈ behind.head?, c = 13 ∨ c = 10

/-- The file is served as the header asks, or whole. -/
structure RangeServed (value file : List UInt8) (r : response) : Prop where
  part : r.status = 206 → ∃ first last : ℕ,
    r.content_range = some ((first : ℤ), (last : ℤ), (file.length : ℤ)) ∧ first ≤ last
      ∧ last < file.length ∧ r.content_length = last - first + 1
      ∧ r.body = (file.drop first).take (last - first + 1)
      ∧ AsksFor value file.length first last
  whole : r.status ≠ 206 → r.status = 200 ∧ r.content_range = none
    ∧ r.content_length = file.length ∧ r.body = file

/-- What `sscanf` reads of the first of several ranges: a suffix of no bytes is the position 0,
a longer one is in front of the file, and a last position that is 0 is none. -/
def byte_range.read : byte_range → Option (ℕ × Option ℕ)
  | .span first (some 0) => some (first, none)
  | .span first last => some (first, last)
  | .suffix 0 => some (0, none)
  | .suffix _ => none

/-- The headers that are read as they are meant. -/
def ReadAsMeant (size : ℕ) (value behind : List UInt8) : Prop :=
  match byte_ranges value with
  | some [.span _ none] => ∀ r ∈ scan_lld behind, r.1 = 0 ∨ (size : ℤ) - 1 ≤ r.1
  | some [.span _ (some last)] => last ≠ 0 ∨ size ≤ 1
  | some (r :: s :: rs) => ∃ read ∈ r.read, ∀ i < size,
    ((∃ t ∈ r :: s :: rs, t.Asks size i) ↔ read.1 ≤ i ∧ ∀ b ∈ read.2, i ≤ b)
  | _ => False

/-! ## Scanning -/

theorem dropWhile_behind {p : UInt8 → Bool} {body rest : List UInt8}
    (hbody : ∀ c ∈ body, p c = true) (hrest : ∀ c ∈ rest.head?, p c = false) : (body ++ rest).dropWhile p = rest := by
  rw [List.dropWhile_append_of_pos hbody]
  cases rest with
  | nil => rfl
  | cons c rest => exact List.dropWhile_cons_of_neg (by simp [hrest c rfl])

theorem takeWhile_front {p : UInt8 → Bool} {body rest : List UInt8} (hbody : ∀ c ∈ body, p c = true)
    (hrest : ∀ c ∈ rest.head?, p c = false) : (body ++ rest).takeWhile p = body := by
  rw [List.takeWhile_append_of_pos hbody]
  cases rest with
  | nil => exact List.append_nil _
  | cons c rest =>
      rw [List.takeWhile_cons_of_neg (by simp [hrest c rfl]), List.append_nil]

/-- A digit is no blank and no sign. -/
theorem digit_facts {c : UInt8} (h : isdigit c = true) :
    isspace c = false ∧ c ≠ 45 ∧ c ≠ 43 := by
  have hrange : 48 ≤ c.toNat ∧ c.toNat ≤ 57 := by
    simpa [isdigit, UInt8.le_iff_toNat_le] using h
  refine ⟨?_, ?_, ?_⟩
  · simp only [isspace, Bool.or_eq_false_iff, Bool.and_eq_false_iff, decide_eq_false_iff_not,
      UInt8.le_iff_toNat_le, ← UInt8.toNat_inj, UInt8.reduceToNat]
    omega
  · rintro rfl
    exact absurd hrange.1 (by decide)
  · rintro rfl
    exact absurd hrange.1 (by decide)

section Scan

variable {ws ds rest : List UInt8}

theorem head_digits (rest : List UInt8) (hds : ∀ c ∈ ds, isdigit c = true) (hne : ds ≠ []) :
    ∃ d, isdigit d = true ∧ (ds ++ rest).head? = some d := by
  obtain ⟨d, ds', rfl⟩ := List.exists_cons_of_ne_nil hne
  exact ⟨d, hds d List.mem_cons_self, rfl⟩

/-- Blanks in front of a number make no difference. -/
theorem scan_lld_blanks (hws : ∀ c ∈ ws, isspace c = true) (t : List UInt8) :
    scan_lld (ws ++ t) = scan_lld t := by
  have hdrop : (ws ++ t).dropWhile isspace = t.dropWhile isspace :=
    List.dropWhile_append_of_pos hws
  simp only [scan_lld, scan_number, behind_number, hdrop]

/-- A number without a sign. -/
theorem scan_lld_digits (hds : ∀ c ∈ ds, isdigit c = true) (hne : ds ≠ [])
    (hrest : ∀ c ∈ rest.head?, isdigit c = false) :
    scan_lld (ds ++ rest) = some (to_lld (number ds), rest) := by
  obtain ⟨d, hd, hhead⟩ := head_digits rest hds hne
  obtain ⟨hspace, hminus, hplus⟩ := digit_facts hd
  have hdrop : (ds ++ rest).dropWhile isspace = ds ++ rest :=
    dropWhile_behind (List.forall_mem_nil _) (by simp [hhead, hspace])
  have hsign : ¬((ds ++ rest).head? = some 45 ∨ (ds ++ rest).head? = some 43) := by
    rw [hhead]
    simp [hminus, hplus]
  have hnumber : scan_number (ds ++ rest) = some (number ds : ℤ) := by
    simp only [scan_number, hdrop, if_neg hsign, takeWhile_front hds hrest]
    rw [if_pos (by simp [hhead, hd]), if_neg (not_or.mp hsign).1]
    rfl
  have hbehind : behind_number (ds ++ rest) = rest := by
    simp only [behind_number, hdrop, if_neg hsign]
    exact dropWhile_behind hds hrest
  rw [scan_lld, hnumber, hbehind]
  rfl

/-- A number with a minus. -/
theorem scan_lld_minus (hds : ∀ c ∈ ds, isdigit c = true) (hne : ds ≠ [])
    (hrest : ∀ c ∈ rest.head?, isdigit c = false) :
    scan_lld (45 :: (ds ++ rest)) = some (to_lld (-(number ds : ℤ)), rest) := by
  obtain ⟨d, hd, hhead⟩ := head_digits rest hds hne
  have hdrop : (45 :: (ds ++ rest)).dropWhile isspace = 45 :: (ds ++ rest) := by
    rw [List.dropWhile_cons_of_neg (by decide)]
  have hnumber : scan_number (45 :: (ds ++ rest)) = some (-(number ds : ℤ)) := by
    simp only [scan_number, hdrop, List.head?_cons, true_or, if_true, List.tail_cons,
      takeWhile_front hds hrest]
    rw [if_pos (by simp [hhead, hd])]
    rfl
  have hbehind : behind_number (45 :: (ds ++ rest)) = rest := by
    simp only [behind_number, hdrop, List.head?_cons, true_or, if_true, List.tail_cons]
    exact dropWhile_behind hds hrest
  rw [scan_lld, hnumber, hbehind]
  rfl

/-- There is no number at a comma. -/
theorem scan_lld_comma (t : List UInt8) : scan_lld (44 :: t) = none := by
  have hdrop : (44 :: t).dropWhile isspace = 44 :: t := by
    rw [List.dropWhile_cons_of_neg (by decide)]
  have hdigit : isdigit 44 = false := by decide
  simp [scan_lld, scan_number, hdrop, hdigit]

end Scan

/-! ## Ranges -/

theorem isspace_of_ows {c : UInt8} (h : is_ows c = true) : isspace c = true := by
  simp only [is_ows, Bool.or_eq_true, decide_eq_true_eq] at h
  rcases h with rfl | rfl <;> decide

theorem trim_eq (text : List UInt8) : ∃ ws ws', text = ws ++ (trim text ++ ws')
    ∧ (∀ c ∈ ws, is_ows c = true) ∧ ∀ c ∈ ws', is_ows c = true := by
  have hfront := List.takeWhile_append_dropWhile (p := is_ows) (l := text)
  have hback := List.takeWhile_append_dropWhile (p := is_ows)
    (l := (text.dropWhile is_ows).reverse)
  refine ⟨text.takeWhile is_ows, ((text.dropWhile is_ows).reverse.takeWhile is_ows).reverse,
    ?_, fun c hc => List.mem_takeWhile_imp hc, fun c hc => ?_⟩
  · have hrev := congrArg List.reverse hback
    rw [List.reverse_append, List.reverse_reverse] at hrev
    rw [trim, hrev, hfront]
  · exact List.mem_takeWhile_imp (List.mem_reverse.mp hc)

/-- What a range looks like. -/
theorem byte_range_of_some {text : List UInt8} {r : byte_range} (h : byte_range_of text = some r) :
    ∃ ds ds', text = ds ++ 45 :: ds' ∧ (∀ c ∈ ds, isdigit c = true)
      ∧ (∀ c ∈ ds', isdigit c = true)
      ∧ (ds = [] ∧ ds' ≠ [] ∧ r = .suffix (number ds')
        ∨ ds ≠ [] ∧ ds' = [] ∧ r = .span (number ds) none
        ∨ ds ≠ [] ∧ ds' ≠ [] ∧ number ds ≤ number ds'
          ∧ r = .span (number ds) (some (number ds'))) := by
  have hsplit := List.takeWhile_append_dropWhile (p := isdigit) (l := text)
  have hfront : ∀ c ∈ text.takeWhile isdigit, isdigit c = true :=
    fun c hc => List.mem_takeWhile_imp hc
  unfold byte_range_of at h
  generalize text.takeWhile isdigit = ds at hsplit hfront h
  generalize text.dropWhile isdigit = rest at hsplit h
  dsimp only at h
  split at h
  · next last =>
    split_ifs at h with hlast hds hl hl hle <;> cases h <;>
      refine ⟨ds, last, hsplit.symm, hfront, List.all_eq_true.mp hlast, ?_⟩
    · exact Or.inl ⟨hds, hl, rfl⟩
    · exact Or.inr (Or.inl ⟨hds, hl, rfl⟩)
    · exact Or.inr (Or.inr ⟨hds, hl, hle, rfl⟩)
  · cases h

/-- What stands behind a range: a blank, a comma, or the end of the line. -/
def Behind (t : List UInt8) : Prop := ∀ c ∈ t.head?, c ∈ [32, 9, 44, 13, 10]

theorem Behind.not_digit {t : List UInt8} (h : Behind t) : ∀ c ∈ t.head?, isdigit c = false := by
  intro c hc
  have hall : [32, 9, 44, 13, 10].all (fun c => !isdigit c) = true := by decide
  simpa using List.all_eq_true.mp hall c (h c hc)

theorem Behind.not_minus {t : List UInt8} (h : Behind t) : t.head? ≠ some 45 := by
  intro hc
  exact absurd (h 45 hc) (by decide)

/-- What `sscanf` reads of a text that begins with a range. -/
def scanned (r : byte_range) (next : List UInt8) (range_end : ℤ) : ℤ × ℤ :=
  match r with
  | .span first none => (to_lld first, ((scan_lld next).map Prod.fst).getD range_end)
  | .span first (some last) => (to_lld first, to_lld last)
  | .suffix length => (to_lld (-length), range_end)

theorem sscanf_range_eq {text next : List UInt8} {r : byte_range}
    (h : byte_range_of (trim text) = some r) (hnext : Behind next) (range_end : ℤ) :
    sscanf_range (text ++ next) 0 range_end = scanned r next range_end := by
  obtain ⟨ws, ws', htext, hws, hws'⟩ := trim_eq text
  obtain ⟨ds, ds', hcore, hds, hds', hcases⟩ := byte_range_of_some h
  have hblank : Behind (ws' ++ next) := by
    cases ws' with
    | nil => exact hnext
    | cons c ws' =>
        rintro _ ⟨⟩
        have hc := hws' c List.mem_cons_self
        simp only [is_ows, Bool.or_eq_true, decide_eq_true_eq] at hc
        rcases hc with rfl | rfl <;> decide
  have hrest : scan_lld (ws' ++ next) = scan_lld next :=
    scan_lld_blanks (fun c hc => isspace_of_ows (hws' c hc)) next
  have hfront : text ++ next = ws ++ (ds ++ 45 :: (ds' ++ (ws' ++ next))) := by
    rw [htext, hcore]
    simp
  have hminus : ∀ c ∈ (45 :: (ds' ++ (ws' ++ next))).head?, isdigit c = false := by
    rintro _ ⟨⟩
    decide
  rw [sscanf_range, hfront, scan_lld_blanks fun c hc => isspace_of_ows (hws c hc)]
  rcases hcases with ⟨rfl, hne, rfl⟩ | ⟨hne, rfl, rfl⟩ | ⟨hne, hne', -, rfl⟩
  · rw [List.nil_append, scan_lld_minus hds' hne hblank.not_digit]
    exact if_neg hblank.not_minus
  · rw [scan_lld_digits hds hne hminus]
    simp only [List.nil_append, List.head?_cons, if_true, List.tail_cons, hrest, scanned]
    cases scan_lld next with
    | none => rfl
    | some last => rfl
  · rw [scan_lld_digits hds hne hminus]
    simp only [List.head?_cons, if_true, List.tail_cons,
      scan_lld_digits hds' hne' hblank.not_digit, scanned]

/-- The bytes are sent as they stand in the file. -/
theorem send_chunks_eq (file : List UInt8) (left : ℕ) : send_chunks file left = file.take left := by
  induction left using Nat.strongRecOn generalizing file with
  | _ left ih =>
      rw [send_chunks]
      dsimp only
      split_ifs with hdone hstop
      · rw [hdone, List.take_zero]
      · have hsize : 0 < CHUNK_SIZE := by decide
        rw [List.take_eq_nil_iff] at hstop
        rw [hstop.resolve_left (by omega), List.take_nil]
      · have hlen : 0 < (file.take (min CHUNK_SIZE left)).length := List.length_pos_iff.mpr hstop
        rw [ih _ (by omega)]
        have hle : min CHUNK_SIZE left ≤ left := Nat.min_le_right _ _
        generalize min CHUNK_SIZE left = n at hlen hle ⊢
        rw [List.length_take]
        by_cases hshort : file.length ≤ n
        · rw [Nat.min_eq_right hshort, List.drop_length, List.take_nil, List.append_nil,
            List.take_of_length_le hshort, List.take_of_length_le (by omega)]
        · rw [Nat.min_eq_left (by omega), ← List.take_add, Nat.add_sub_cancel' hle]

/-! ## The answer -/

section Answer

variable {lead value behind file : List UInt8}

/-- The positions that are served, from what `sscanf` read. -/
def patched (size : ℤ) (read : ℤ × ℤ) : Option (ℤ × ℤ) :=
  let range_end := if size ≤ read.2 ∨ read.2 = 0 then size - 1 else read.2
  if read.1 ≤ range_end then some (read.1, range_end) else none

theorem RangeRequest.read_range_eq (h : RangeRequest lead value behind) (size : ℤ) :
    read_range (lead ++ range_name ++ value ++ behind) size
      = patched size (sscanf_range (value ++ behind) 0 (size - 1)) := by
  have hlen : (lead ++ range_name).length = lead.length + 13 := by
    rw [List.length_append]
    rfl
  rw [read_range, h.first]
  dsimp only
  rw [← hlen, List.append_assoc (lead ++ range_name), List.drop_left]
  rfl

/-- A file that is served whole is served as it should. -/
theorem served_whole {header_buf : List UInt8}
    (h : read_range header_buf file.length = none) :
    RangeServed value file (serve_file header_buf file) := by
  rw [serve_file, h]
  refine ⟨fun h206 => absurd (show 200 = 206 from h206) (by decide), fun _ => ⟨rfl, rfl, rfl, ?_⟩⟩
  exact (send_chunks_eq file file.length).trans (List.take_length)

/-- Of a file that is served in part, only the positions matter. -/
theorem served_part {header_buf : List UInt8} {first last : ℤ}
    (h : read_range header_buf file.length = some (first, last)) (hle : first ≤ last)
    (hlast : last < file.length) (hsize : file.length < 2 ^ 63) :
    RangeServed value file (serve_file header_buf file)
      ↔ 0 ≤ first ∧ AsksFor value file.length first.toNat last.toNat := by
  rw [serve_file, h]
  dsimp only
  refine ⟨?_, ?_⟩
  · intro hserved
    obtain ⟨f, l, hrange, -, -, -, -, hasks⟩ := hserved.part rfl
    simp only [Option.some.injEq, Prod.mk.injEq] at hrange
    obtain ⟨rfl, rfl, -⟩ := hrange
    exact ⟨Int.natCast_nonneg f, hasks⟩
  · rintro ⟨hpos, hasks⟩
    obtain ⟨f, rfl⟩ := Int.eq_ofNat_of_zero_le hpos
    obtain ⟨l, rfl⟩ := Int.eq_ofNat_of_zero_le (hpos.trans hle)
    have hlen : (((l : ℤ) - f + 1) % 2 ^ 64).toNat = l - f + 1 := by omega
    refine ⟨fun _ => ⟨f, l, rfl, by omega, by omega, hlen, ?_, hasks⟩, fun hne => absurd rfl hne⟩
    dsimp only
    rw [hlen, send_chunks_eq, if_neg (by omega), Int.toNat_natCast]

theorem patched_some {size x c first last : ℤ} (h : patched size (x, c) = some (first, last)) :
    first = x ∧ last = (if size ≤ c ∨ c = 0 then size - 1 else c) ∧ first ≤ last
      ∧ last < size := by
  unfold patched at h
  dsimp only at h
  split_ifs at h ⊢ with hpatch hle hle
  · cases h
    omega
  · cases h
    omega

/-- A position of the file is read as it is. -/
theorem to_lld_of_lt {size : ℕ} (a : ℕ) (h : to_lld a < size) (hsize : size < 2 ^ 63) :
    to_lld a = a := by
  unfold to_lld at h ⊢
  omega

theorem byte_range.Asks.lt {r : byte_range} {size i : ℕ} (h : r.Asks size i) : i < size := by
  cases r with
  | span first last => exact h.1
  | suffix length => exact h.1

/-- What `sscanf` sees of a valid header. -/
theorem sscanf_first {r : byte_range} {rs : List byte_range}
    (h : byte_ranges value = some (r :: rs)) (hend : ∀ c ∈ behind.head?, c = 13 ∨ c = 10) :
    ∃ next, (∀ e, sscanf_range (value ++ behind) 0 e = scanned r next e)
      ∧ (rs = [] → next = behind) ∧ (rs ≠ [] → scan_lld next = none)
      ∧ ∃ text, byte_range_of text = some r := by
  unfold byte_ranges at h
  rw [Delimited.splitOn_eq, List.mapM_cons] at h
  obtain ⟨r', hr, hrest⟩ := Option.bind_eq_some_iff.mp h
  obtain ⟨rs', hrs, hcons⟩ := Option.bind_eq_some_iff.mp hrest
  obtain ⟨rfl, rfl⟩ := List.cons.inj (Option.some.inj hcons)
  rcases Delimited.first_cases 44 value with ⟨hvalue, hothers⟩ | ⟨rest, hvalue, hothers⟩
  · have hnext : Behind behind := by
      intro c hc
      rcases hend c hc with rfl | rfl <;> decide
    refine ⟨behind, fun e => ?_, fun _ => rfl, fun hne => absurd ?_ hne, _, hr⟩
    · rw [← sscanf_range_eq hr hnext e, ← hvalue]
    · rw [hothers] at hrs
      exact (Option.some.inj hrs).symm
  · have hnext : Behind (44 :: (rest ++ behind)) := by
      rintro _ ⟨⟩
      decide
    refine ⟨44 :: (rest ++ behind), fun e => ?_, fun hnil => ?_, fun _ => scan_lld_comma _, _, hr⟩
    · rw [← sscanf_range_eq hr hnext e]
      conv_lhs => rw [hvalue]
      rw [List.append_assoc, List.cons_append]
    · rw [hothers, Delimited.splitOn_eq, List.mapM_cons, hnil] at hrs
      obtain ⟨_, -, hrest⟩ := Option.bind_eq_some_iff.mp hrs
      obtain ⟨_, -, hcons⟩ := Option.bind_eq_some_iff.mp hrest
      exact absurd (Option.some.inj hcons) (List.cons_ne_nil _ _)

theorem asksFor_iff {rs : List byte_range} {size first last : ℕ}
    (h : byte_ranges value = some rs) :
    AsksFor value size first last ↔ ∀ i, (∃ r ∈ rs, r.Asks size i) ↔ first ≤ i ∧ i ≤ last := by
  refine ⟨?_, fun hall => ⟨rs, h, hall⟩⟩
  rintro ⟨rs', hrs', hall⟩
  rw [h] at hrs'
  obtain rfl := Option.some.inj hrs'
  exact hall

/-- One range from a position on. The end that counts is the one that is read, maybe on the next
line. -/
theorem span_iff {size a : ℕ} {next : List UInt8} {first last : ℤ} (hsize : size < 2 ^ 63)
    (h : patched size (scanned (.span a none) next (size - 1)) = some (first, last)) :
    (0 ≤ first ∧ ∀ i, byte_range.Asks size i (.span a none)
        ↔ first.toNat ≤ i ∧ i ≤ last.toNat)
      ↔ ∀ r ∈ scan_lld next, r.1 = 0 ∨ (size : ℤ) - 1 ≤ r.1 := by
  obtain ⟨hfirst, hlast, hle, hlt⟩ := patched_some h
  have ha := to_lld_of_lt a (by omega) hsize
  have hasks : ∀ i, byte_range.Asks size i (.span a none) ↔ i < size ∧ a ≤ i := by
    intro i
    simp [byte_range.Asks]
  simp only [hasks]
  cases hscan : scan_lld next with
  | none =>
      rw [hscan] at hlast
      simp only [Option.map_none, Option.getD_none] at hlast
      refine iff_of_true ⟨by omega, fun i => ?_⟩ (by simp)
      split_ifs at hlast <;> omega
  | some r =>
      rw [hscan] at hlast
      simp only [Option.map_some, Option.getD_some] at hlast
      simp only [Option.mem_def, Option.some.injEq, forall_eq']
      refine ⟨?_, ?_⟩
      · rintro ⟨hpos, hall⟩
        have hend := hall (size - 1)
        split_ifs at hlast <;> omega
      · intro hr
        refine ⟨by omega, fun i => ?_⟩
        split_ifs at hlast <;> omega

/-- One range from one position to another. -/
theorem span_to_iff {size a b : ℕ} {next : List UInt8} {first last : ℤ} (hsize : size < 2 ^ 63)
    (hab : a ≤ b)
    (h : patched size (scanned (.span a (some b)) next (size - 1)) = some (first, last)) :
    (0 ≤ first ∧ ∀ i, byte_range.Asks size i (.span a (some b))
        ↔ first.toNat ≤ i ∧ i ≤ last.toNat)
      ↔ b ≠ 0 ∨ size ≤ 1 := by
  obtain ⟨hfirst, hlast, hle, hlt⟩ := patched_some h
  have ha := to_lld_of_lt a (by omega) hsize
  have hb : to_lld b = min (2 ^ 63 - 1) b := by
    unfold to_lld
    omega
  have hasks : ∀ i, byte_range.Asks size i (.span a (some b)) ↔ i < size ∧ a ≤ i ∧ i ≤ b := by
    intro i
    simp [byte_range.Asks]
  simp only [hasks]
  rw [hb] at hlast
  refine ⟨?_, ?_⟩
  · rintro ⟨hpos, hall⟩
    have hend := hall (size - 1)
    split_ifs at hlast <;> omega
  · intro hok
    refine ⟨by omega, fun i => ?_⟩
    split_ifs at hlast <;> omega

/-- A suffix never gives the positions that it means. -/
theorem suffix_not {size n : ℕ} {next : List UInt8} {first last : ℤ}
    (h : patched size (scanned (.suffix n) next (size - 1)) = some (first, last)) :
    ¬(0 ≤ first ∧ ∀ i, byte_range.Asks size i (.suffix n) ↔ first.toNat ≤ i ∧ i ≤ last.toNat) := by
  obtain ⟨hfirst, hlast, hle, hlt⟩ := patched_some h
  rintro ⟨hpos, hall⟩
  unfold to_lld at hfirst
  have hzero : n = 0 := by omega
  have hasks := (hall first.toNat).mpr (by omega)
  rw [hzero] at hasks
  simp only [byte_range.Asks] at hasks
  omega

/-- Of several ranges the first is read, and what all of them ask for is to be just that. -/
theorem several_iff {size : ℕ} {r : byte_range} (rs : List byte_range) {next : List UInt8}
    {first last : ℤ} (hsize : size < 2 ^ 63) (hnext : scan_lld next = none)
    (h : patched size (scanned r next (size - 1)) = some (first, last)) :
    (0 ≤ first ∧ ∀ i, (∃ t ∈ r :: rs, t.Asks size i) ↔ first.toNat ≤ i ∧ i ≤ last.toNat)
      ↔ ∃ read ∈ r.read, ∀ i < size,
        ((∃ t ∈ r :: rs, t.Asks size i) ↔ read.1 ≤ i ∧ ∀ b ∈ read.2, i ≤ b) := by
  have hread : (0 ≤ first ↔ r.read.isSome = true) ∧ ∀ read ∈ r.read,
      ∀ i < size, (first.toNat ≤ i ∧ i ≤ last.toNat ↔ read.1 ≤ i ∧ ∀ b ∈ read.2, i ≤ b) := by
    rcases r with ⟨a, _ | _ | b⟩ | ⟨_ | n⟩
    · obtain ⟨hfirst, hlast, hle, hlt⟩ := patched_some h
      have ha := to_lld_of_lt a (by omega) hsize
      simp only [hnext, Option.map_none, Option.getD_none] at hlast
      refine ⟨iff_of_true (by omega) rfl, ?_⟩
      rintro _ ⟨⟩ i hi
      simp only [Option.mem_def, reduceCtorEq, false_imp_iff, implies_true, and_true]
      split_ifs at hlast <;> omega
    · obtain ⟨hfirst, hlast, hle, hlt⟩ := patched_some h
      have ha := to_lld_of_lt a (by omega) hsize
      have hzero : to_lld (0 : ℕ) = 0 := by decide
      rw [hzero] at hlast
      refine ⟨iff_of_true (by omega) rfl, ?_⟩
      rintro _ ⟨⟩ i hi
      simp only [Option.mem_def, reduceCtorEq, false_imp_iff, implies_true, and_true]
      split_ifs at hlast <;> omega
    · obtain ⟨hfirst, hlast, hle, hlt⟩ := patched_some h
      have ha := to_lld_of_lt a (by omega) hsize
      have hb : to_lld ((b + 1 : ℕ) : ℤ) = min (2 ^ 63 - 1) ((b + 1 : ℕ) : ℤ) := by
        unfold to_lld
        omega
      rw [hb] at hlast
      refine ⟨iff_of_true (by omega) rfl, ?_⟩
      rintro _ ⟨⟩ i hi
      simp only [Option.mem_def, Option.some.injEq, forall_eq']
      split_ifs at hlast <;> omega
    · obtain ⟨hfirst, hlast, hle, hlt⟩ := patched_some h
      have hzero : to_lld (-((0 : ℕ) : ℤ)) = 0 := by decide
      rw [hzero] at hfirst
      refine ⟨iff_of_true hfirst.ge rfl, ?_⟩
      rintro _ ⟨⟩ i hi
      simp only [Option.mem_def, reduceCtorEq, false_imp_iff, implies_true, and_true]
      split_ifs at hlast <;> omega
    · obtain ⟨hfirst, hlast, hle, hlt⟩ := patched_some h
      unfold to_lld at hfirst
      refine ⟨iff_of_false (by omega) (by simp [byte_range.read]), ?_⟩
      rintro _ ⟨⟩
  obtain ⟨-, -, hle, hlt⟩ := patched_some h
  refine ⟨?_, ?_⟩
  · rintro ⟨hpos, hall⟩
    obtain ⟨read, hr⟩ := Option.isSome_iff_exists.mp (hread.1.mp hpos)
    exact ⟨read, hr, fun i hi => (hall i).trans (hread.2 read hr i hi)⟩
  · rintro ⟨read, hr, hall⟩
    have hpos := hread.1.mpr (Option.isSome_iff_exists.mpr ⟨read, hr⟩)
    refine ⟨hpos, fun i => ?_⟩
    by_cases hi : i < size
    · exact (hall i hi).trans (hread.2 read hr i hi).symm
    · refine iff_of_false ?_ (by omega)
      rintro ⟨t, -, hasks⟩
      exact hi hasks.lt

/-- A file that is served in part is served as asked where the header is read as meant. -/
theorem part_iff (hsize : file.length < 2 ^ 63) {first last : ℤ}
    (hend : ∀ c ∈ behind.head?, c = 13 ∨ c = 10)
    (h : patched file.length (sscanf_range (value ++ behind) 0 (file.length - 1))
      = some (first, last)) :
    (0 ≤ first ∧ AsksFor value file.length first.toNat last.toNat)
      ↔ ReadAsMeant file.length value behind := by
  unfold ReadAsMeant
  cases hranges : byte_ranges value with
  | none =>
      refine iff_of_false ?_ id
      rintro ⟨-, rs, hrs, -⟩
      rw [hranges] at hrs
      cases hrs
  | some rs =>
      rw [asksFor_iff hranges]
      cases rs with
      | nil =>
          obtain ⟨-, -, hle, -⟩ := patched_some (x := (sscanf_range (value ++ behind) 0
            (file.length - 1)).1) h
          refine iff_of_false ?_ id
          rintro ⟨hpos, hall⟩
          obtain ⟨t, ht, -⟩ := (hall first.toNat).mpr (by omega)
          exact List.not_mem_nil ht
      | cons r rs =>
          obtain ⟨next, hscan, hone, hseveral, text, htext⟩ := sscanf_first hranges hend
          rw [hscan] at h
          cases rs with
          | nil =>
              rw [hone rfl] at h
              simp only [List.mem_singleton, exists_eq_left]
              rcases r with ⟨a, _ | b⟩ | n
              · exact span_iff hsize h
              · refine span_to_iff hsize ?_ h
                obtain ⟨ds, ds', -, -, -, hcases⟩ := byte_range_of_some htext
                rcases hcases with ⟨-, -, hr⟩ | ⟨-, -, hr⟩ | ⟨-, -, hle, hr⟩ <;> cases hr
                exact hle
              · exact iff_of_false (suffix_not h) id
          | cons s rs =>
              have hseen := several_iff (s :: rs) hsize (hseveral (List.cons_ne_nil _ _)) h
              rcases r with ⟨a, _ | b⟩ | n <;> exact hseen

/-- **Range requests.** The answer is right exactly where the file is sent whole or the header is
read as it is meant. -/
theorem range_served_iff (h : RangeRequest lead value behind) (hsize : file.length < 2 ^ 63) :
    RangeServed value file (serve_file (lead ++ range_name ++ value ++ behind) file)
      ↔ read_range (lead ++ range_name ++ value ++ behind) file.length = none
        ∨ ReadAsMeant file.length value behind := by
  cases hread : read_range (lead ++ range_name ++ value ++ behind) file.length with
  | none => exact iff_of_true (served_whole hread) (Or.inl rfl)
  | some range =>
      obtain ⟨first, last⟩ := range
      have hpatched := hread
      rw [h.read_range_eq] at hpatched
      obtain ⟨-, -, hle, hlt⟩ := patched_some (x := (sscanf_range (value ++ behind) 0
        (file.length - 1)).1) hpatched
      rw [served_part hread hle hlt hsize, part_iff hsize h.line_end hpatched,
        or_iff_right (by simp)]

end Answer

/-- The request line in front of the header, and the header behind it. -/
def get_lead : List UInt8 := literal "GET /a HTTP/1.1\r\n"
def get_behind : List UInt8 := literal "\r\nHost: x\r\n\r\n"

theorem range_served_page : RangeServed (literal "2-4") (literal "0123456789")
      (serve_file (get_lead ++ range_name ++ literal "2-4" ++ get_behind) (literal "0123456789"))
    ↔ read_range (get_lead ++ range_name ++ literal "2-4" ++ get_behind)
        (literal "0123456789").length = none
      ∨ ReadAsMeant (literal "0123456789").length (literal "2-4") get_behind :=
  range_served_iff ⟨by decide +kernel, by decide +kernel, by decide +kernel⟩ (by decide +kernel)

/-- The first byte is asked for, and all of them are announced. -/
theorem first_byte_is_all : ¬∀ lead value behind file, RangeRequest lead value behind →
    file.length < 2 ^ 63 →
      RangeServed value file (serve_file (lead ++ range_name ++ value ++ behind) file) := by
  intro hall
  have hserved := hall get_lead (literal "0-0") get_behind (literal "0123456789")
    ⟨by decide +kernel, by decide +kernel, by decide +kernel⟩ (by decide +kernel)
  have hread : read_range (get_lead ++ range_name ++ literal "0-0" ++ get_behind)
      (literal "0123456789").length = some (0, 9) := by
    decide
  rw [serve_file, hread] at hserved
  obtain ⟨first, last, hrange, -, -, -, -, rs, hrs, hasks⟩ := hserved.part rfl
  simp only [Option.some.injEq, Prod.mk.injEq] at hrange
  have hranges : byte_ranges (literal "0-0") = some [.span 0 (some 0)] := by decide
  rw [hranges] at hrs
  obtain rfl := Option.some.inj hrs
  -- the byte behind the first is among those announced, and none asked for
  have hone := (hasks 1).mpr (by omega)
  simp [byte_range.Asks] at hone

end SysInC.SimplehostRange
