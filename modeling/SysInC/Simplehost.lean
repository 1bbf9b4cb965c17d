/-
What `is_safe_canonical_path` of simplehost serves.

The request is decoded into `char decoded[1024]`, cut at a `?`, refused for a `..` or a backslash
anywhere in it, and joined to the root of the server. No component of what is accepted is `..`,
so it lies in the root (`accepted_inside`). What is refused or cut is more than that: the decoding
goes before the cut, so that `%3F` ends a name; `..` is looked for in the text and not among the
components, so that `a..b` is refused; and a plus sign is read as a blank. `served_iff` says which
requests come out right.
-/
import SysInC.CString
import SysInC.CText
import SysInC.Delimited
import SysInC.LexicalPath
import Mathlib.Data.List.Forall2
import Mathlib.Data.List.TakeWhile

set_option autoImplicit false

namespace SysInC.Simplehost

open CText Delimited LexicalPath
open CString (text_of text_of_append)

/-- `/` -/
abbrev slash : UInt8 := 47

/-- `.` -/
abbrev dot : UInt8 := 46

/-! ## `url_decode` -/

def isxdigit (c : UInt8) : Bool := 48 ≤ c ∧ c ≤ 57 ∨ 65 ≤ c ∧ c ≤ 70 ∨ 97 ≤ c ∧ c ≤ 102

/-- The value of a hexadecimal digit. -/
def xdigit (c : UInt8) : UInt8 := if c ≤ 57 then c - 48 else if c ≤ 70 then c - 55 else c - 87

/-- One turn of the loop: the byte that is written, and what is left of `src`. -/
def url_byte (c : UInt8) (rest : List UInt8) : UInt8 × List UInt8 :=
  match rest with
  | a :: b :: after =>
    if c = 37 ∧ isxdigit a ∧ isxdigit b then (16 * xdigit a + xdigit b, after)
    else (if c = 43 then 32 else c, rest)
  | _ => (if c = 43 then 32 else c, rest)

/-- The loop, with room for so many bytes more. -/
def url_decode_loop : ℕ → List UInt8 → List UInt8
  | 0, _ => []
  | _ + 1, [] => []
  | room + 1, c :: rest => (url_byte c rest).1 :: url_decode_loop room (url_byte c rest).2

def url_decode (src : List UInt8) (dst_len : ℕ) : List UInt8 := url_decode_loop (dst_len - 1) src

/-! ## `is_safe_canonical_path` -/

/-- `decoded` when its `?` is cut off. -/
def decoded (rel_path : List UInt8) : List UInt8 :=
  (text_of (url_decode rel_path 1024)).takeWhile (· ≠ 63)

/-- `out_full_path` where the path is accepted. -/
def is_safe_canonical_path (g_www_root rel_path : List UInt8) (max_len : ℕ) :
    Option (List UInt8) :=
  let text := decoded rel_path
  if strstr [dot, dot] text ≠ none ∨ 92 ∈ text then none
  else
    let out_full_path := snprintf max_len
      (if text.head? = some slash then g_www_root ++ text else g_www_root ++ slash :: text)
    if g_www_root.isPrefixOf out_full_path then some out_full_path else none

/-- `g_www_root`, a text in 1024 bytes. -/
structure WwwRoot where
  path : List UInt8
  ne_nil : path ≠ []
  length_lt : path.length < 1024

/-- What `ensure_www_structure` puts into `g_www_root`. -/
def ensure_www_structure (home : List UInt8) : WwwRoot where
  path := snprintf 1024 ((if home = [] then literal "." else home) ++ literal "/simplehost_www")
  ne_nil := by
    intro empty
    rw [snprintf, List.take_eq_nil_iff] at empty
    rcases empty with zero | none_printed
    · exact absurd zero (by decide)
    · exact absurd (List.append_eq_nil_iff.mp none_printed).2 (by decide)
  length_lt := by
    have := List.length_take_le (1024 - 1)
      ((if home = [] then literal "." else home) ++ literal "/simplehost_www")
    rw [snprintf]
    omega

/-- `sizeof(full_fs_path)` at the one call. -/
abbrev sizeof_full_fs_path : ℕ := 1024

/-! ## The claim -/

/-- `u` is a percent-encoding of `path`: a byte stands for itself, or is given by two digits. -/
inductive Encodes : List UInt8 → List UInt8 → Prop
  | nil : Encodes [] []
  | raw (c : UInt8) {u path : List UInt8} (hc : c ≠ 0 ∧ c ≠ 37 ∧ c ≠ 63) (h : Encodes u path) :
      Encodes (c :: u) (c :: path)
  | escaped (a b : UInt8) {u path : List UInt8} (hdigits : isxdigit a ∧ isxdigit b)
      (h : Encodes u path) : Encodes (37 :: a :: b :: u) ((16 * xdigit a + xdigit b) :: path)

/-- The request in front of its query. -/
def path_part (uri : List UInt8) : List UInt8 := uri.takeWhile (· ≠ 63)

/-- A request for a relative path, with or without a slash in front. -/
def Requests (uri path : List UInt8) : Prop :=
  ∃ u, Encodes u path ∧ (path_part uri = u ∨ path_part uri = slash :: u)

/-- A relative path whose components are ordinary names. -/
def Ordinary (path : List UInt8) : Prop :=
  0 ∉ path ∧ ∀ name ∈ path.splitOn slash, name ≠ [] ∧ name ≠ [dot] ∧ name ≠ [dot, dot]

/-- The path fits `decoded`, and joined to the root it fits `full_fs_path`. -/
def Fits (root : WwwRoot) (path : List UInt8) : Prop :=
  path.length + 1 < 1024 ∧ root.path.length + 1 + path.length < sizeof_full_fs_path

/-- What is accepted lies in the root, and a request for an ordinary path gets it. -/
structure Served (root : WwwRoot) (uri : List UInt8) : Prop where
  inside : ∀ out, is_safe_canonical_path root.path uri sizeof_full_fs_path = some out →
    (∃ below, out = root.path ++ slash :: below ∧ [dot, dot] ∉ below.splitOn slash)
      ∧ Inside slash dot root.path out
  mapped : ∀ path, Requests uri path → Ordinary path → Fits root path →
    is_safe_canonical_path root.path uri sizeof_full_fs_path = some (root.path ++ slash :: path)

/-! ## What a request decodes to -/

variable {u path uri t : List UInt8}

/-- A plus sign is read as a blank, everything else as it is. -/
def ReadAs (d p : UInt8) : Prop := d = p ∨ d = 32 ∧ p = 43

theorem url_byte_raw {c : UInt8} (hc : c ≠ 37) (rest : List UInt8) :
    url_byte c rest = (if c = 43 then 32 else c, rest) := by
  unfold url_byte
  split
  · exact if_neg fun escape => hc escape.1
  · rfl

theorem not_plus_of_xdigit {c : UInt8} (h : isxdigit c) : (43 : UInt8) ≠ c := by
  rintro rfl
  exact absurd h (by decide)

/-- The loop over an encoded path, whatever follows it. -/
theorem url_decode_encoded (h : Encodes u path) :
    ∃ read, List.Forall₂ ReadAs read path ∧ (read = path ↔ 43 ∉ u)
      ∧ ∀ room rest, url_decode_loop (read.length + room) (u ++ rest)
        = read ++ url_decode_loop room rest := by
  induction h with
  | nil => exact ⟨[], .nil, by simp, fun room rest => by simp⟩
  | raw c hc h ih =>
      obtain ⟨read, same, exact_iff, loop⟩ := ih
      refine ⟨(if c = 43 then 32 else c) :: read, .cons ?_ same, ?_, fun room rest => ?_⟩
      · by_cases plus : c = 43
        · exact Or.inr ⟨if_pos plus, plus⟩
        · exact Or.inl (if_neg plus)
      · by_cases plus : c = 43
        · simp [plus]
        · simp [plus, exact_iff, Ne.symm plus]
      · rw [List.length_cons, Nat.add_right_comm, List.cons_append, url_decode_loop,
          url_byte_raw hc.2.1, loop, List.cons_append]
  | escaped a b hdigits h ih =>
      obtain ⟨read, same, exact_iff, loop⟩ := ih
      refine ⟨(16 * xdigit a + xdigit b) :: read, .cons (Or.inl rfl) same, ?_, fun room rest => ?_⟩
      · simp [exact_iff, not_plus_of_xdigit hdigits.1, not_plus_of_xdigit hdigits.2]
      · rw [List.length_cons, Nat.add_right_comm, List.cons_append, List.cons_append,
          List.cons_append, url_decode_loop]
        simp only [url_byte, hdigits, and_self, if_true]
        rw [loop, List.cons_append]

/-- Nothing, or a question mark and more. -/
def QueryOnly (t : List UInt8) : Prop := ∀ c ∈ t.head?, c = 63

theorem queryOnly_query (uri : List UInt8) : QueryOnly (uri.dropWhile (· ≠ 63)) := by
  intro c hc
  have := List.head?_dropWhile_not (fun c : UInt8 => decide (c ≠ 63)) uri
  rw [Option.mem_def.mp hc] at this
  simpa using this

theorem QueryOnly.decode (h : QueryOnly t) (room : ℕ) : QueryOnly (url_decode_loop room t) := by
  intro c hc
  match room, t, h with
  | 0, t, _ => exact absurd hc (by simp [url_decode_loop])
  | _ + 1, [], _ => exact absurd hc (by simp [url_decode_loop])
  | room + 1, d :: t, h =>
    obtain rfl : d = 63 := h d rfl
    rw [url_decode_loop, url_byte_raw (by decide)] at hc
    simpa using hc.symm

theorem QueryOnly.text_of (h : QueryOnly t) : QueryOnly (text_of t) := by
  intro c hc
  cases t with
  | nil => exact absurd hc (by simp [CString.text_of])
  | cons d t =>
      obtain rfl : d = 63 := h d rfl
      simpa [CString.text_of] using hc.symm

theorem QueryOnly.cut (h : QueryOnly t) : t.takeWhile (· ≠ 63) = [] := by
  cases t with
  | nil => rfl
  | cons d t =>
      obtain rfl : d = 63 := h d rfl
      rfl

theorem cut_append (read : List UInt8) (h : QueryOnly t) :
    (read ++ t).takeWhile (· ≠ 63) = read.takeWhile (· ≠ 63) := by
  rw [List.takeWhile_append, h.cut, List.append_nil]
  split
  · next whole => exact ((List.takeWhile_prefix _).eq_of_length whole).symm
  · rfl

theorem zero_notMem_read {read : List UInt8} (same : List.Forall₂ ReadAs read path)
    (h : 0 ∉ path) : 0 ∉ read := by
  induction same with
  | nil => exact h
  | @cons d p read path first _ ih =>
      rw [List.mem_cons, not_or] at h ⊢
      refine ⟨?_, ih h.2⟩
      rcases first with rfl | ⟨rfl, -⟩
      · exact h.1
      · decide

/-- What is left of the request when it is decoded and cut. -/
theorem decoded_request {read lead : List UInt8} (hlead : lead = [] ∨ lead = [slash])
    (same : List.Forall₂ ReadAs read path) (hzero : 0 ∉ path) (hlen : path.length + 1 < 1024)
    (loop : ∀ room rest, url_decode_loop (read.length + room) (u ++ rest)
      = read ++ url_decode_loop room rest)
    (hpart : path_part uri = lead ++ u) :
    decoded uri = lead ++ read.takeWhile (· ≠ 63) := by
  obtain ⟨query, hquery, hsplit⟩ : ∃ query, QueryOnly query ∧ uri = lead ++ (u ++ query) := by
    refine ⟨uri.dropWhile (· ≠ 63), queryOnly_query uri, ?_⟩
    rw [← List.append_assoc, ← hpart, path_part, List.takeWhile_append_dropWhile]
  have hread : read.length = path.length := List.Forall₂.length_eq same
  obtain ⟨room, hroom⟩ : ∃ room, url_decode uri 1024
      = lead ++ (read ++ url_decode_loop room query) := by
    rcases hlead with rfl | rfl
    · refine ⟨1023 - read.length, ?_⟩
      rw [url_decode, hsplit, List.nil_append, List.nil_append, ← loop]
      congr 1
      omega
    · refine ⟨1022 - read.length, ?_⟩
      rw [url_decode, hsplit, List.cons_append, List.nil_append,
        show 1024 - 1 = (read.length + (1022 - read.length)) + 1 by omega, url_decode_loop,
        url_byte_raw (by decide), loop]
      rfl
  have hend := (hquery.decode room).text_of
  have hclean : 0 ∉ lead := by
    rcases hlead with rfl | rfl <;> decide
  rw [decoded, hroom, text_of_append hclean, text_of_append (zero_notMem_read same hzero)]
  rcases hlead with rfl | rfl
  · exact cut_append read hend
  · rw [List.cons_append, List.takeWhile_cons_of_pos (by decide), List.nil_append,
      cut_append read hend]
    rfl

/-! ## What is accepted -/

/-- A text without the slash in front, which the root is joined with anyway. -/
def unslashed (text : List UInt8) : List UInt8 :=
  if text.head? = some slash then text.tail else text

/-- The code refuses the text: a `..` or a backslash stands in it. -/
def Refused (text : List UInt8) : Prop := [dot, dot] <:+: text ∨ 92 ∈ text

instance (text : List UInt8) : Decidable (Refused text) :=
  inferInstanceAs (Decidable ([dot, dot] <:+: text ∨ 92 ∈ text))

/-- The test against the root refuses nothing. -/
theorem is_safe_canonical_path_eq (root : WwwRoot) (uri : List UInt8) :
    is_safe_canonical_path root.path uri sizeof_full_fs_path
      = if Refused (decoded uri) then none
        else some ((root.path ++ slash :: unslashed (decoded uri)).take 1023) := by
  have hjoin : (if (decoded uri).head? = some slash then root.path ++ decoded uri
      else root.path ++ slash :: decoded uri)
      = root.path ++ slash :: unslashed (decoded uri) := by
    unfold unslashed
    split
    · next first =>
      cases htext : decoded uri with
      | nil => simp [htext] at first
      | cons c text => simpa [htext] using first
    · rfl
  have hlen := root.length_lt
  have hfront : root.path.isPrefixOf
      ((root.path ++ slash :: unslashed (decoded uri)).take 1023) = true := by
    rw [List.isPrefixOf_iff_prefix, List.take_append, List.take_of_length_le (by omega)]
    exact List.prefix_append _ _
  have hout : snprintf sizeof_full_fs_path (root.path ++ slash :: unslashed (decoded uri))
      = (root.path ++ slash :: unslashed (decoded uri)).take 1023 := rfl
  simp only [is_safe_canonical_path, hjoin, hout, hfront, if_true]
  exact if_congr (by rw [Refused, Ne, strstr_eq_none_iff, not_not]) rfl rfl

theorem unslashed_append (read : List UInt8) (h : read.head? ≠ some slash) {lead : List UInt8}
    (hlead : lead = [] ∨ lead = [slash]) : unslashed (lead ++ read) = read := by
  rcases hlead with rfl | rfl
  · exact if_neg h
  · rfl

/-- Where no name is `..`, none is taken back. -/
theorem climb_eq_zero {below : List UInt8} (h : [dot, dot] ∉ below.splitOn slash) :
    (climb slash dot below).1 = 0 := by
  suffices hrun : ∀ (names : List (List UInt8)) (s : ℕ × List (List UInt8)),
      [dot, dot] ∉ names → (names.foldl (climb_step dot) s).1 = s.1 from hrun _ _ h
  intro names
  induction names with
  | nil => exact fun s _ => rfl
  | cons name names ih =>
      intro s hnames
      rw [List.mem_cons, not_or] at hnames
      rw [List.foldl_cons, ih _ hnames.2, climb_step, if_neg (Ne.symm hnames.1)]
      split <;> rfl

theorem unslashed_suffix (text : List UInt8) : unslashed text <:+ text := by
  unfold unslashed
  split
  · exact List.tail_suffix text
  · exact List.suffix_rfl

/-- What is accepted lies in the root, where the root leaves room for a slash. -/
theorem accepted_inside (root : WwwRoot) (hroom : root.path.length + 1 < 1024)
    (hclean : ¬Refused (decoded uri)) :
    (∃ below,
        (root.path ++ slash :: unslashed (decoded uri)).take 1023 = root.path ++ slash :: below
        ∧ [dot, dot] ∉ below.splitOn slash)
      ∧ Inside slash dot root.path
        ((root.path ++ slash :: unslashed (decoded uri)).take 1023) := by
  have hcut : (root.path ++ slash :: unslashed (decoded uri)).take 1023
      = root.path ++ slash :: (unslashed (decoded uri)).take (1022 - root.path.length) := by
    rw [List.take_append, List.take_of_length_le (by omega),
      show 1023 - root.path.length = (1022 - root.path.length) + 1 by omega, List.take_succ_cons]
  have hnames : [dot, dot]
      ∉ ((unslashed (decoded uri)).take (1022 - root.path.length)).splitOn slash := by
    intro hmem
    have hpart := infix_of_mem_splitOn _ _ hmem
    exact hclean (Or.inl (hpart.trans
      ((List.take_prefix _ _).isInfix.trans (unslashed_suffix _).isInfix)))
  rw [hcut]
  exact ⟨⟨_, rfl, hnames⟩, (inside_join_iff root.ne_nil).mpr (Or.inl (climb_eq_zero hnames))⟩

/-- The root fills its buffer: its own path is the outcome for whatever is accepted. -/
theorem not_inside_full (root : WwwRoot) (hfull : root.path.length + 1 = 1024) :
    ¬∃ below, (root.path ++ slash :: unslashed (decoded uri)).take 1023
      = root.path ++ slash :: below := by
  rintro ⟨below, hbelow⟩
  have hlen := congrArg List.length hbelow
  simp only [List.length_take, List.length_append, List.length_cons] at hlen
  omega

/-! ## What a request for an ordinary path gets -/

theorem Ordinary.head_ne (h : Ordinary path) : path.head? ≠ some slash ∧ path ≠ [] := by
  have hfirst := (h.2 (first slash path) (by rw [splitOn_eq]; exact List.mem_cons_self)).1
  refine ⟨fun first_slash => ?_, fun empty => ?_⟩
  · cases path with
    | nil => exact absurd first_slash (by simp)
    | cons c path =>
        obtain rfl : c = slash := by simpa using first_slash
        exact hfirst (List.takeWhile_cons_of_neg (by simp))
  · exact hfirst (by rw [empty]; rfl)

theorem two_dots_infix_slash {text : List UInt8} :
    [dot, dot] <:+: slash :: text ↔ [dot, dot] <:+: text := by
  rw [List.infix_cons_iff, List.cons_prefix_cons]
  exact or_iff_right fun h => absurd h.1 (by decide)

theorem refused_lead {lead text : List UInt8} (hlead : lead = [] ∨ lead = [slash]) :
    Refused (lead ++ text) ↔ Refused text := by
  rcases hlead with rfl | rfl
  · rfl
  · rw [Refused, Refused, List.cons_append, List.nil_append, two_dots_infix_slash, List.mem_cons]
    exact or_congr_right (or_iff_right (by decide))

/-- Which of the ordinary paths are mapped to what they name. -/
theorem mapped_iff (root : WwwRoot) (hrequest : Requests uri path) (hpath : Ordinary path)
    (hfits : Fits root path) :
    is_safe_canonical_path root.path uri sizeof_full_fs_path = some (root.path ++ slash :: path)
      ↔ ¬Refused path ∧ 63 ∉ path ∧ 43 ∉ path_part uri := by
  obtain ⟨u, hencodes, hwhole⟩ := hrequest
  obtain ⟨lead, hlead, hpart⟩ :
      ∃ lead, (lead = [] ∨ lead = [slash]) ∧ path_part uri = lead ++ u := by
    rcases hwhole with whole | whole
    · exact ⟨[], Or.inl rfl, whole⟩
    · exact ⟨[slash], Or.inr rfl, whole⟩
  obtain ⟨read, same, exact_iff, loop⟩ := url_decode_encoded hencodes
  have htext := decoded_request hlead same hpath.1 hfits.1 loop hpart
  have hlen : read.length = path.length := List.Forall₂.length_eq same
  have hplus : 43 ∉ path_part uri ↔ 43 ∉ u := by
    rw [hpart]
    have hslash : (43 : UInt8) ≠ slash := by decide
    rcases hlead with rfl | rfl <;> simp [hslash]
  -- a first byte that is read as a slash is one
  have hhead : (read.takeWhile (· ≠ 63)).head? ≠ some slash := by
    intro first_slash
    cases same with
    | nil => exact absurd first_slash (by simp)
    | @cons d p read path first _ =>
        have hd : d = slash := by
          by_cases query : d = 63
          · simp [query] at first_slash
          · simpa [query] using first_slash
        rcases first with rfl | ⟨blank, -⟩
        · exact hpath.head_ne.1 (by rw [hd]; rfl)
        · exact absurd (hd.symm.trans blank) (by decide)
  have hcut := (List.takeWhile_prefix (l := read) (· ≠ (63 : UInt8))).length_le
  have hfit : root.path.length + 1 + path.length < 1024 := hfits.2
  have hout : (root.path ++ slash :: read.takeWhile (· ≠ 63)).take 1023
      = root.path ++ slash :: read.takeWhile (· ≠ 63) :=
    List.take_of_length_le (by simp only [List.length_append, List.length_cons]; omega)
  have hsame : read.takeWhile (· ≠ 63) = path ↔ 63 ∉ path ∧ read = path := by
    constructor
    · intro heq
      have hread : read.takeWhile (· ≠ 63) = read :=
        (List.takeWhile_prefix _).eq_of_length (by rw [heq, hlen])
      refine ⟨fun hmem => ?_, hread.symm.trans heq⟩
      exact not_mem_first 63 read (by rwa [first, heq])
    · rintro ⟨hquery, rfl⟩
      exact takeWhile_self hquery
  rw [is_safe_canonical_path_eq, htext, unslashed_append _ hhead hlead, hout, hplus, ← exact_iff,
    ← hsame]
  rw [if_congr (refused_lead hlead) rfl rfl]
  constructor
  · intro accepted
    split at accepted
    · exact absurd accepted (by simp)
    · next clean =>
      have heq : read.takeWhile (· ≠ 63) = path := by simpa using accepted
      exact ⟨heq ▸ clean, heq⟩
  · rintro ⟨clean, heq⟩
    rw [heq, if_neg clean]

/-- **Which requests are served as they should be.** -/
theorem served_iff (root : WwwRoot) (uri : List UInt8) :
    Served root uri
      ↔ (root.path.length + 1 = 1024 → Refused (decoded uri))
        ∧ ∀ path, Requests uri path → Ordinary path → Fits root path →
          ¬[dot, dot] <:+: path ∧ 92 ∉ path ∧ 63 ∉ path ∧ 43 ∉ path_part uri := by
  constructor
  · intro served
    refine ⟨fun full => ?_, fun path hrequest hpath hfits => ?_⟩
    · by_contra clean
      have accepted := is_safe_canonical_path_eq root uri
      rw [if_neg clean] at accepted
      obtain ⟨⟨below, hbelow, -⟩, -⟩ := served.inside _ accepted
      exact not_inside_full root full ⟨below, hbelow⟩
    · obtain ⟨clean, query, plus⟩ :=
        (mapped_iff root hrequest hpath hfits).mp (served.mapped path hrequest hpath hfits)
      exact ⟨fun h => clean (Or.inl h), fun h => clean (Or.inr h), query, plus⟩
  · rintro ⟨hfull, hpaths⟩
    refine ⟨fun out accepted => ?_, fun path hrequest hpath hfits => ?_⟩
    · rw [is_safe_canonical_path_eq] at accepted
      split at accepted
      · exact absurd accepted (by simp)
      · next clean =>
        have hroom : root.path.length + 1 < 1024 := by
          have hlen := root.length_lt
          have hne : root.path.length + 1 ≠ 1024 := fun full => clean (hfull full)
          omega
        obtain rfl := Option.some.inj accepted
        exact accepted_inside root hroom clean
    · obtain ⟨dots, backslash, query, plus⟩ := hpaths path hrequest hpath hfits
      exact (mapped_iff root hrequest hpath hfits).mpr
        ⟨fun h => h.elim dots backslash, query, plus⟩

/-- `GET /a%3Fb`, a request for the file `a?b`, gets the file `a`; and `GET /a..b`, a request for
`a..b`, is refused. -/
theorem names_not_served :
    ¬Served (ensure_www_structure (literal "/root")) (literal "/a%3Fb")
      ∧ ¬Served (ensure_www_structure (literal "/root")) (literal "/a..b") := by
  refine ⟨fun served => ?_, fun served => ?_⟩
  · refine absurd (served.mapped (literal "a?b") ⟨literal "a%3Fb", ?_, Or.inr (by decide)⟩
      ⟨by decide, by decide⟩ ⟨by decide, by decide⟩) (by decide)
    exact .raw 97 (by decide) (.escaped 51 70 (by decide) (.raw 98 (by decide) .nil))
  · refine absurd (served.mapped (literal "a..b") ⟨literal "a..b", ?_, Or.inr (by decide)⟩
      ⟨by decide, by decide⟩ ⟨by decide, by decide⟩) (by decide)
    exact .raw 97 (by decide) (.raw 46 (by decide) (.raw 46 (by decide) (.raw 98 (by decide) .nil)))

end SysInC.Simplehost
