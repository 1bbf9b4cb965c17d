/-
The generator of `src/qrcli/qrcli.c`: the arithmetic of GF(256), the Reed-Solomon encoder, and
`generate_qr_code`, which lays a text out as a square of dark and light modules.

A text is given by its bytes, a codeword is a natural number, and a square a function of row and
column. The generator returns its square instead of printing it.
-/
import Mathlib.Algebra.Order.Ring.Nat
import Mathlib.Data.List.Basic
import Mathlib.Data.Int.Notation
import Mathlib.Tactic.Common

set_option autoImplicit false

namespace SysInC.Qr

/-! ## GF(256) -/

structure Gf where
  gf_exp : List ℕ
  gf_log : List ℕ

/-- One turn of the loop of `gf_init`, with the power that it has come to. -/
def gf_turn (s : ℕ × Gf) (i : ℕ) : ℕ × Gf :=
  let x := s.1 <<< 1
  (if x &&& 0x100 ≠ 0 then x ^^^ 0x11D else x,
    { gf_exp := (s.2.gf_exp.set i s.1).set (i + 255) s.1
      gf_log := s.2.gf_log.set s.1 i })

def gf_init : Gf :=
  let gf := ((List.range 255).foldl gf_turn (1, ⟨List.replicate 512 0, List.replicate 256 0⟩)).2
  { gf with gf_log := gf.gf_log.set 0 0 }

def gf_mul (gf : Gf) (a b : ℕ) : ℕ :=
  if a = 0 ∨ b = 0 then 0 else gf.gf_exp.getD (gf.gf_log.getD a 0 + gf.gf_log.getD b 0) 0

/-- `poly` times the next root's factor, from the highest index down. -/
def gen_poly_turn (gf : Gf) (poly : List ℕ) (i : ℕ) : List ℕ :=
  (List.range (i + 1)).reverse.foldl (fun poly j =>
    poly.set (j + 1) (poly.getD (j + 1) 0 ^^^ gf_mul gf (poly.getD j 0) (gf.gf_exp.getD i 0))) poly

def rs_gen_poly (gf : Gf) (nsym : ℕ) : List ℕ :=
  (List.range nsym).foldl (gen_poly_turn gf) (1 :: List.replicate nsym 0)

/-- One byte of data through the shift register. -/
def rs_encode_turn (gf : Gf) (ec_len : ℕ) (gen_poly : List ℕ) (ec : List ℕ) (byte : ℕ) : List ℕ :=
  let factor := byte ^^^ ec.getD 0 0
  let ec := (List.range (ec_len - 1)).foldl (fun ec j =>
    ec.set j (ec.getD (j + 1) 0 ^^^ gf_mul gf (gen_poly.getD (j + 1) 0) factor)) ec
  ec.set (ec_len - 1) (gf_mul gf (gen_poly.getD ec_len 0) factor)

def rs_encode (gf : Gf) (data : List ℕ) (ec_len : ℕ) (gen_poly : List ℕ) : List ℕ :=
  data.foldl (rs_encode_turn gf ec_len gen_poly) (List.replicate ec_len 0)

/-! ## Versions -/

structure QRVersionInfo where
  version : ℕ
  size : ℕ
  data_cw : ℕ
  ec_cw : ℕ
  align_pos : ℕ
  deriving DecidableEq

def qr_versions : List QRVersionInfo :=
  [⟨1, 21, 19, 7, 0⟩, ⟨2, 25, 34, 10, 18⟩, ⟨3, 29, 55, 15, 22⟩, ⟨4, 33, 80, 20, 26⟩,
    ⟨5, 37, 108, 26, 30⟩]

/-- The smallest version that the text fits in. -/
def select_version (text_len : ℕ) : Option QRVersionInfo :=
  qr_versions.find? fun v => text_len + 3 ≤ v.data_cw

/-! ## Codewords -/

structure BitStream where
  data_bytes : List ℕ
  bit_pos : ℕ

def write_bit (bit : Bool) (s : BitStream) : BitStream where
  data_bytes := if bit = true then
      s.data_bytes.set (s.bit_pos / 8)
        (s.data_bytes.getD (s.bit_pos / 8) 0 ||| 1 <<< (7 - s.bit_pos % 8))
    else s.data_bytes
  bit_pos := s.bit_pos + 1

/-- `WRITE_BITS`, from the highest bit down. -/
def write_bits (val : ℕ) : ℕ → BitStream → BitStream
  | 0, s => s
  | count + 1, s => write_bits val count (write_bit (val.testBit count) s)

/-- Mode, length, text, terminator and the zeros up to a whole byte. -/
def write_text (text : List UInt8) (data_cw_count : ℕ) : BitStream :=
  let s := write_bits text.length 8 (write_bits 0x4 4 ⟨List.replicate 128 0, 0⟩)
  let s := text.foldl (fun s c => write_bits c.toNat 8 s) s
  let s := write_bits 0 (min 4 (data_cw_count * 8 - s.bit_pos)) s
  if s.bit_pos % 8 ≠ 0 then write_bits 0 (8 - s.bit_pos % 8) s else s

/-- The bytes behind the text, `0xEC` and `0x11` in turns. -/
def pad_bytes (data_cw_count : ℕ) (s : BitStream) : List ℕ :=
  let current_bytes := s.bit_pos / 8
  (List.range' current_bytes (data_cw_count - current_bytes)).foldl (fun data_bytes i =>
    data_bytes.set i (if i % 2 = current_bytes % 2 then 0xEC else 0x11)) s.data_bytes

def all_codewords (text : List UInt8) (v : QRVersionInfo) : List ℕ :=
  let data := (pad_bytes v.data_cw (write_text text v.data_cw)).take v.data_cw
  data ++ rs_encode gf_init data v.ec_cw (rs_gen_poly gf_init v.ec_cw)

/-! ## Function modules -/

/-- Dark modules, or a set of modules, by row and column. -/
abbrev Grid := ℕ → ℕ → Bool

def put (grid : Grid) (r c : ℕ) (b : Bool) : Grid :=
  fun r' c' => if r' = r ∧ c' = c then b else grid r' c'

structure Matrix where
  grid : Grid
  reserved : Grid

def Matrix.mark (m : Matrix) (r c : ℕ) (b : Bool) : Matrix where
  grid := put m.grid r c b
  reserved := put m.reserved r c true

def finder_dark (r c : ℤ) : Bool :=
  0 ≤ r ∧ r ≤ 6 ∧ 0 ≤ c ∧ c ≤ 6 ∧
    (r = 0 ∨ r = 6 ∨ c = 0 ∨ c = 6 ∨ (2 ≤ r ∧ r ≤ 4 ∧ 2 ≤ c ∧ c ≤ 4))

/-- The module of a finder at the offsets `r` and `c`, which may lie outside. -/
def finder_module (r0 c0 size : ℕ) (m : Matrix) (r c : ℤ) : Matrix :=
  if 0 ≤ r0 + r ∧ r0 + r < size ∧ 0 ≤ c0 + c ∧ c0 + c < size then
    m.mark (r0 + r).toNat (c0 + c).toNat (finder_dark r c)
  else m

def draw_finder (r0 c0 size : ℕ) (m : Matrix) : Matrix :=
  (List.range 9).foldl (fun m i => (List.range 9).foldl (fun m j =>
    finder_module r0 c0 size m ((i : ℤ) - 1) ((j : ℤ) - 1)) m) m

/-- Offsets are counted from -2. -/
def draw_alignment (r0 c0 : ℕ) (m : Matrix) : Matrix :=
  (List.range 5).foldl (fun m i => (List.range 5).foldl (fun m j =>
    m.mark (r0 + i - 2) (c0 + j - 2)
      (i = 0 ∨ i = 4 ∨ j = 0 ∨ j = 4 ∨ (i = 2 ∧ j = 2))) m) m

def draw_timing (size : ℕ) (m : Matrix) : Matrix :=
  (List.range' 8 (size - 16)).foldl (fun m i =>
    (m.mark 6 i (i % 2 = 0)).mark i 6 (i % 2 = 0)) m

/-- The area of the format information: nine modules on either side of a corner. -/
def reserve_format (size : ℕ) (m : Matrix) : Matrix :=
  { m with
    reserved := (List.range 9).foldl (fun reserved i =>
      put (put (put (put reserved 8 i true) i 8 true) 8 (size - 1 - i) true) (size - 1 - i) 8 true)
      m.reserved }

def draw_function_modules (v : QRVersionInfo) : Matrix :=
  let m : Matrix := ⟨fun _ _ => false, fun _ _ => false⟩
  let m := draw_finder 0 0 v.size m
  let m := draw_finder 0 (v.size - 7) v.size m
  let m := draw_finder (v.size - 7) 0 v.size m
  let m := if 0 < v.align_pos then draw_alignment v.align_pos v.align_pos m else m
  let m := draw_timing v.size m
  let m := m.mark (v.size - 8) 8 true
  reserve_format v.size m

/-! ## Data modules -/

structure Filling where
  grid : Grid
  bit_idx : ℕ

def codeword_bit (codewords : List ℕ) (bit_idx : ℕ) : Bool :=
  (codewords.getD (bit_idx / 8) 0).testBit (7 - bit_idx % 8)

/-- A module that is not reserved takes the next bit, or none, under mask 0. -/
def fill_module (codewords : List ℕ) (reserved : Grid) (s : Filling) (row col : ℕ) : Filling :=
  if reserved row col = true then s
  else if s.bit_idx < codewords.length * 8 then
    { grid := put s.grid row col
        (codeword_bit codewords s.bit_idx ^^ decide ((row + col) % 2 = 0))
      bit_idx := s.bit_idx + 1 }
  else { s with grid := put s.grid row col (false ^^ decide ((row + col) % 2 = 0)) }

/-- Two columns, from `r` up or down. -/
def fill_columns (codewords : List ℕ) (reserved : Grid) (size c r : ℕ) (up : Bool)
    (s : Filling) : Filling :=
  (List.range size).foldl (fun s i => (List.range 2).foldl (fun s col_offset =>
    fill_module codewords reserved s (if up = true then r - i else r + i) (c - col_offset)) s) s

/-- The loop over the columns; the column of the timing pattern is passed over. -/
def fill_loop (codewords : List ℕ) (reserved : Grid) (size : ℕ) :
    ℕ → ℕ → ℕ → Bool → Filling → Filling
  | 0, _, _, _, s => s
  | fuel + 1, c, r, up, s =>
      if c = 0 then s
      else
        let c := if c = 6 then c - 1 else c
        fill_loop codewords reserved size fuel (c - 2) (if up = true then 0 else size - 1) (!up)
          (fill_columns codewords reserved size c r up s)

def fill_data (codewords : List ℕ) (size : ℕ) (m : Matrix) : Grid :=
  (fill_loop codewords m.reserved size size (size - 1) (size - 1) true ⟨m.grid, 0⟩).grid

/-! ## Format information -/

/-- Level L and mask 0. -/
def format_bits : ℕ := 0x77C4

/-- Where bit `i` is written, once in the corner and once beside the other two. -/
def format_corner (i : ℕ) : ℕ × ℕ :=
  if i ≤ 5 then (8, i)
  else if i = 6 then (8, 7)
  else if i = 7 then (8, 8)
  else if i = 8 then (7, 8)
  else (14 - i, 8)

def format_sides (size i : ℕ) : ℕ × ℕ :=
  if i < 8 then (size - 1 - i, 8) else (8, size - 15 + i)

def write_format (size : ℕ) (grid : Grid) : Grid :=
  (List.range 15).foldl (fun grid i =>
    let b := format_bits.testBit i
    put (put grid (format_corner i).1 (format_corner i).2 b) (format_sides size i).1
      (format_sides size i).2 b) grid

/-! ## The symbol -/

def draw_symbol (text : List UInt8) (v : QRVersionInfo) : Grid :=
  write_format v.size (fill_data (all_codewords text v) v.size (draw_function_modules v))

/-- The version and the modules; `none` where the text is too long. -/
def generate_qr_code (text : List UInt8) : Option (QRVersionInfo × Grid) :=
  (select_version text.length).map fun v => (v, draw_symbol text v)

end SysInC.Qr
