/-
A reader of QR symbols (byte mode, versions 1 to 5, no errors in the data), and what it makes of
the squares that `generate_qr_code` draws.

The format information tells which mask is on the data. It stands in two places, and its fifteen
bits are a codeword from which up to three errors can be taken. The generator writes them with row
and column exchanged, so that a reader finds them in reverse order, and what it finds is four bits
away from every codeword. Read without the correction it names mask 1, under which the data do not
begin with the indicator of the byte mode.
-/
import SysInC.Qr
import Mathlib.Data.List.Induction

set_option autoImplicit false

namespace SysInC.Qr

/-! ## Format information -/

/-- The check bits that follow five data bits: the remainder of the division by `0x537`. -/
def bch_remainder (data : ℕ) : ℕ :=
  (List.range 5).foldl (fun r k =>
    if r.testBit (14 - k) = true then r ^^^ (0x537 <<< (4 - k)) else r) (data <<< 10)

def format_codeword (data : ℕ) : ℕ := ((data <<< 10) ||| bch_remainder data) ^^^ 0x5412

/-- In how many of fifteen bits two words differ. -/
def distance (w w' : ℕ) : ℕ :=
  ((List.range 15).filter fun i => w.testBit i != w'.testBit i).length

/-- The mask of a codeword at most three bits away. -/
def corrected_mask (w : ℕ) : Option ℕ :=
  ((List.range 32).find? fun data => distance w (format_codeword data) ≤ 3).map (· % 8)

/-- The mask by the bits as they are. -/
def plain_mask (w : ℕ) : Option ℕ := some (((w ^^^ 0x5412) >>> 10) % 8)

/-- Where bit `i` stands around the finder in the corner. -/
def standard_corner (i : ℕ) : ℕ × ℕ :=
  if i ≤ 5 then (i, 8)
  else if i = 6 then (7, 8)
  else if i = 7 then (8, 8)
  else if i = 8 then (8, 7)
  else (8, 14 - i)

/-- Where it stands beside the other two. -/
def standard_sides (size i : ℕ) : ℕ × ℕ :=
  if i < 8 then (8, size - 1 - i) else (size - 15 + i, 8)

def format_word (position : ℕ → ℕ × ℕ) (grid : Grid) : ℕ :=
  (List.range 15).foldr (fun i w => w + if grid (position i).1 (position i).2 = true then 2 ^ i
    else 0) 0

/-! ## Data modules -/

/-- Finders with their separators, format information, timing patterns and, from version 2 on, one
alignment pattern. -/
def is_function (size r c : ℕ) : Bool :=
  (r ≤ 8 ∧ c ≤ 8) ∨ (r ≤ 8 ∧ size - 8 ≤ c) ∨ (size - 8 ≤ r ∧ c ≤ 8) ∨ r = 6 ∨ c = 6 ∨
    (25 ≤ size ∧ size - 9 ≤ r ∧ r ≤ size - 5 ∧ size - 9 ≤ c ∧ c ≤ size - 5)

/-- The right column of the `k`-th pair of columns, from the right. -/
def pair_column (size k : ℕ) : ℕ :=
  if size - 1 - 2 * k ≤ 6 then size - 2 - 2 * k else size - 1 - 2 * k

/-- The modules of a pair of columns, upwards in the first pair, then downwards, and so on. -/
def pair_modules (size k : ℕ) : List (ℕ × ℕ) :=
  (List.range size).flatMap fun i =>
    let r := if k % 2 = 0 then size - 1 - i else i
    [(r, pair_column size k), (r, pair_column size k - 1)]

/-- The data modules in the order of the codewords. -/
def data_modules (size : ℕ) : List (ℕ × ℕ) :=
  ((List.range ((size - 1) / 2)).flatMap (pair_modules size)).filter fun p =>
    !is_function size p.1 p.2

def mask_flips (mask r c : ℕ) : Bool :=
  match mask with
  | 0 => (r + c) % 2 = 0
  | 1 => r % 2 = 0
  | 2 => c % 3 = 0
  | 3 => (r + c) % 3 = 0
  | 4 => (r / 2 + c / 3) % 2 = 0
  | 5 => r * c % 2 + r * c % 3 = 0
  | 6 => (r * c % 2 + r * c % 3) % 2 = 0
  | _ => ((r + c) % 2 + r * c % 3) % 2 = 0

def read_modules (mask : ℕ) (grid : Grid) (modules : List (ℕ × ℕ)) : List Bool :=
  modules.map fun p => grid p.1 p.2 ^^ mask_flips mask p.1 p.2

/-! ## The segment -/

def bits_value (bits : List Bool) : ℕ := bits.foldl (fun n b => 2 * n + b.toNat) 0

/-- A segment in byte mode: its indicator, the number of bytes, the bytes. -/
def read_segment (bits : List Bool) : Option (List UInt8) :=
  let text_len := bits_value ((bits.drop 4).take 8)
  if bits_value (bits.take 4) = 4 ∧ 12 + 8 * text_len ≤ bits.length then
    some ((List.range text_len).map fun i =>
      UInt8.ofNat (bits_value ((bits.drop (12 + 8 * i)).take 8)))
  else none

/-- The text of a symbol, with the format information from the corner or, if that names no mask,
from the sides. -/
def read_symbol (names : ℕ → Option ℕ) (size : ℕ) (grid : Grid) : Option (List UInt8) :=
  ((names (format_word standard_corner grid)).or
    (names (format_word (standard_sides size) grid))).bind fun mask =>
      read_segment (read_modules mask grid (data_modules size))

/-! ## The format information that is found -/

theorem corner_word (g : Grid) {v : QRVersionInfo} (hv : v ∈ qr_versions) :
    format_word standard_corner (write_format v.size g) = 0x11F7 := by
  simp only [qr_versions, List.mem_cons, List.not_mem_nil, or_false] at hv
  rcases hv with rfl | rfl | rfl | rfl | rfl
  · rfl
  · rfl
  · rfl
  · rfl
  · rfl

/-- What `write_format` writes, the last first. -/
def format_writes (size : ℕ) : List ((ℕ × ℕ) × Bool) :=
  ((List.range 15).flatMap fun i =>
    [(format_corner i, format_bits.testBit i), (format_sides size i, format_bits.testBit i)]).reverse

theorem put_all_apply (writes : List ((ℕ × ℕ) × Bool)) (g : Grid) (p : ℕ × ℕ) :
    writes.foldl (fun g w => put g w.1.1 w.1.2 w.2) g p.1 p.2 =
      (writes.reverse.lookup p).getD (g p.1 p.2) := by
  induction writes using List.reverseRecOn with
  | nil => rfl
  | append_singleton writes w ih =>
      rw [List.foldl_append, List.foldl_cons, List.foldl_nil, List.reverse_append,
        List.reverse_singleton, List.singleton_append, put, List.lookup_cons, ih]
      by_cases h : p = w.1
      · rw [if_pos ⟨congrArg Prod.fst h, congrArg Prod.snd h⟩, beq_iff_eq.mpr h]
        rfl
      · rw [if_neg fun hnot => h (Prod.ext hnot.1 hnot.2), beq_eq_false_iff_ne.mpr h]

theorem write_format_apply (size : ℕ) (g : Grid) (p : ℕ × ℕ) :
    write_format size g p.1 p.2 = ((format_writes size).lookup p).getD (g p.1 p.2) := by
  rw [format_writes, ← put_all_apply, List.foldl_flatMap]
  rfl

theorem format_word_congr {position : ℕ → ℕ × ℕ} {g g' : Grid}
    (h : ∀ i < 15, g (position i).1 (position i).2 = g' (position i).1 (position i).2) :
    format_word position g = format_word position g' := by
  unfold format_word
  refine List.foldr_ext _ _ _ fun i hi w => ?_
  rw [h i (List.mem_range.mp hi)]

/-- One of the modules has not been written to, and keeps what it had. -/
theorem sides_word (g : Grid) {v : QRVersionInfo} (hv : v ∈ qr_versions) :
    format_word (standard_sides v.size) (write_format v.size g) = 0x1177 ∨
      format_word (standard_sides v.size) (write_format v.size g) = 0x11F7 := by
  have hmissing : ∀ v ∈ qr_versions, ∀ i < 15,
      (format_writes v.size).lookup (standard_sides v.size i) = none → i = 7 := by
    decide
  have hsame : format_word (standard_sides v.size) (write_format v.size g) =
      format_word (standard_sides v.size) fun r c =>
        ((format_writes v.size).lookup (r, c)).getD (g 8 (v.size - 8)) := by
    refine format_word_congr fun i hi => ?_
    rw [write_format_apply]
    cases hlookup : (format_writes v.size).lookup (standard_sides v.size i) with
    | none =>
        obtain rfl := hmissing v hv i hi hlookup
        rfl
    | some b => rfl
  have hword : ∀ v ∈ qr_versions, ∀ b : Bool,
      (format_word (standard_sides v.size) fun r c =>
        ((format_writes v.size).lookup (r, c)).getD b) = if b = true then 0x11F7 else 0x1177 := by
    decide
  rw [hsame, hword v hv]
  split
  · exact Or.inr rfl
  · exact Or.inl rfl

/-- **The format information cannot be corrected**: it is four bits away from every codeword. -/
theorem corrected_mask_none {w : ℕ} (h : w = 0x1177 ∨ w = 0x11F7) : corrected_mask w = none := by
  obtain rfl | rfl := h
  · decide
  · decide

end SysInC.Qr
