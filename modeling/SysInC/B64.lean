/-
`src/b64/b64.c`, the codecs of RFC 4648.

`malloc` answers with NULL, or with a block of the size asked for and any bytes in it. A call is
`none` where it reads or writes outside of a buffer, `some none` where it returns NULL, and
otherwise the bytes of the block it returns and `*out_len`. No object in memory is so long that
a `size_t` of these functions wraps, and they stand as numbers without a bound.
-/
import SysInC.Chunks
import SysInC.OutBuffer
import Mathlib.Data.List.DropRight

set_option autoImplicit false

namespace SysInC.B64

open OutBuffer

abbrev Malloc := (n : ℕ) → Option (Vector UInt8 n)

abbrev Result := Option (Option (List UInt8 × ℕ))

def ascii (s : String) : List UInt8 := s.toList.map fun c => UInt8.ofNat c.toNat

/-- `'='` -/
def pad : UInt8 := 61

def b64_table : List UInt8 :=
  ascii "ABCDEFGHIJKLMNOPQRSTUVWXYZabcdefghijklmnopqrstuvwxyz0123456789+/"

def b32_table : List UInt8 := ascii "ABCDEFGHIJKLMNOPQRSTUVWXYZ234567"

/-- `'\r'`, `'\n'` or a blank. -/
def is_trailing (c : UInt8) : Bool := c == 13 || c == 10 || c == 32

/-- The `while` loop at the start of both decoders. -/
def strip (data : List UInt8) : List UInt8 := data.rdropWhile is_trailing

/-! ## Base64 -/

/-- The characters of one turn of the loop; what is not there of `data` counts as 0. -/
def encode_quad (chunk : List UInt8) : List UInt8 :=
  let oct_a := (chunk.getD 0 0).toNat
  let oct_b := (chunk.getD 1 0).toNat
  let oct_c := (chunk.getD 2 0).toNat
  let triple := (oct_a <<< 16) ||| (oct_b <<< 8) ||| oct_c
  [b64_table.getD ((triple >>> 18) &&& 0x3F) 0, b64_table.getD ((triple >>> 12) &&& 0x3F) 0,
    b64_table.getD ((triple >>> 6) &&& 0x3F) 0, b64_table.getD (triple &&& 0x3F) 0]

/-- The loop, from `out[j]` on. -/
def base64_encode_loop : List (List UInt8) → ℕ → List UInt8 → Option (List UInt8)
  | [], _, out => some out
  | chunk :: rest, j, out =>
    (store_all out j (encode_quad chunk)).bind (base64_encode_loop rest (j + 4))

def base64_encode (malloc : Malloc) (data : List UInt8) : Result :=
  let out_len := 4 * ((data.length + 2) / 3)
  match malloc (out_len + 1) with
  | none => some none
  | some block =>
    (base64_encode_loop (chunks 3 data) 0 block.toList).bind fun out =>
      (if data.length % 3 = 1 then
        (store out (out_len - 1) pad).bind fun out => store out (out_len - 2) pad
      else if data.length % 3 = 2 then store out (out_len - 1) pad
      else some out).bind fun out =>
      (store out out_len 0).map fun out => some (out, out_len)

/-- An entry of `d_table`, as a `uint32_t`: `memset` sets every byte of the others to `0x80`. -/
def d_table (c : UInt8) : ℕ := if c ∈ b64_table then b64_table.idxOf c else 0x80808080

/-- `data[i] == '=' ? 0 : d_table[(unsigned char)data[i]]` -/
def sextet (c : UInt8) : ℕ := if c = pad then 0 else d_table c

/-- The bytes of one turn of the loop. -/
def decode_quad (chunk : List UInt8) : List UInt8 :=
  let s_a := sextet (chunk.getD 0 0)
  let s_b := sextet (chunk.getD 1 0)
  let s_c := sextet (chunk.getD 2 0)
  let s_d := sextet (chunk.getD 3 0)
  -- `uint32_t`
  let triple := ((s_a <<< 18) ||| (s_b <<< 12) ||| (s_c <<< 6) ||| s_d) % 2 ^ 32
  [UInt8.ofNat ((triple >>> 16) &&& 0xFF), UInt8.ofNat ((triple >>> 8) &&& 0xFF),
    UInt8.ofNat (triple &&& 0xFF)]

/-- The loop. A chunk that is too short is read behind the string. -/
def base64_decode_loop (out_len : ℕ) :
    List (List UInt8) → ℕ × List UInt8 → Option (ℕ × List UInt8)
  | [], r => some r
  | chunk :: rest, r =>
    if chunk.length < 4 then none
    else (store_upto out_len (decode_quad chunk) r).bind (base64_decode_loop out_len rest)

/-- `*out_len`, from what `strip` left. -/
def base64_out_len (data : List UInt8) : ℕ :=
  let out_len := data.length / 4 * 3
  let out_len :=
    if 0 < data.length ∧ data.getD (data.length - 1) 0 = pad then out_len - 1 else out_len
  if 1 < data.length ∧ data.getD (data.length - 2) 0 = pad then out_len - 1 else out_len

def base64_decode (malloc : Malloc) (data : List UInt8) : Result :=
  let data := strip data
  if data.length % 4 ≠ 0 then some none
  else
    let out_len := base64_out_len data
    match malloc (out_len + 1) with
    | none => some none
    | some block =>
      (base64_decode_loop out_len (chunks 4 data) (0, block.toList)).bind fun r =>
        (store r.2 out_len 0).map fun out => some (out, out_len)

/-! ## Base32 -/

/-- The characters of one turn of the loop, before the padding. -/
def encode_group (chunk : List UInt8) : List UInt8 :=
  let b := (List.range 5).foldl (fun b k => (b <<< 8) ||| (chunk.getD k 0).toNat) 0
  (List.range 8).reverse.map fun k => b32_table.getD ((b >>> (k * 5)) &&& 0x1F) 0

/-- How many `=` stand at the end of the group of `chunk_len` bytes. -/
def padding (chunk_len : ℕ) : ℕ :=
  if chunk_len = 1 then 6 else if chunk_len = 2 then 4 else if chunk_len = 3 then 3
  else if chunk_len = 4 then 1 else 0

/-- The loop, from `out[o]` on. -/
def base32_encode_loop : List (List UInt8) → ℕ → List UInt8 → Option (ℕ × List UInt8)
  | [], o, out => some (o, out)
  | chunk :: rest, o, out =>
    (store_all out o (encode_group chunk)).bind fun out =>
      (store_all out (o + 8 - padding chunk.length)
        (List.replicate (padding chunk.length) pad)).bind (base32_encode_loop rest (o + 8))

def base32_encode (malloc : Malloc) (data : List UInt8) : Result :=
  let out_len := (data.length + 4) / 5 * 8
  match malloc (out_len + 1) with
  | none => some none
  | some block =>
    (base32_encode_loop (chunks 5 data) 0 block.toList).bind fun r =>
      (store r.2 r.1 0).map fun out => some (out, out_len)

/-- `tolower`, in the C locale. -/
def tolower (c : UInt8) : UInt8 := if 65 ≤ c ∧ c ≤ 90 then c + 32 else c

/-- An entry of `d32`; `none` stands for the -1. -/
def d32 (c : UInt8) : Option ℕ :=
  if c ∈ b32_table then some (b32_table.idxOf c)
  else if c ∈ b32_table.map tolower then some ((b32_table.map tolower).idxOf c)
  else none

/-- `(c == '=') ? 0 : d32[(unsigned char)c]` -/
def quintet (c : UInt8) : Option ℕ := if c = pad then some 0 else d32 c

/-- The number `b` of one turn of the loop. -/
def group_value (chunk : List UInt8) : Option ℕ :=
  chunk.foldlM (fun b c => (quintet c).map fun val => (b <<< 5) ||| val) 0

def group_bytes (b : ℕ) : List UInt8 :=
  (List.range 5).reverse.map fun k => UInt8.ofNat ((b >>> (k * 8)) &&& 0xFF)

/-- The loop: `some none` where it returns NULL. A chunk that is too short is read behind the
string. -/
def base32_decode_loop (out_len : ℕ) :
    List (List UInt8) → ℕ × List UInt8 → Option (Option (ℕ × List UInt8))
  | [], r => some (some r)
  | chunk :: rest, r =>
    if chunk.length < 8 then none
    else
      match group_value chunk with
      | none => some none
      | some b => (store_upto out_len (group_bytes b) r).bind (base32_decode_loop out_len rest)

/-- The `=` at the end, six at most. -/
def pad_count (data : List UInt8) : ℕ := min 6 (data.rtakeWhile (· == pad)).length

def base32_out_len (data : List UInt8) : ℕ :=
  let out_len := data.length / 8 * 5
  if pad_count data = 6 then out_len - 4 else if pad_count data = 4 then out_len - 3
  else if pad_count data = 3 then out_len - 2 else if pad_count data = 1 then out_len - 1
  else out_len

def base32_decode (malloc : Malloc) (data : List UInt8) : Result :=
  let data := strip data
  if data.length % 8 ≠ 0 then some none
  else
    let out_len := base32_out_len data
    match malloc (out_len + 1) with
    | none => some none
    | some block =>
      (base32_decode_loop out_len (chunks 8 data) (0, block.toList)).bind fun r =>
        match r with
        | none => some none
        | some r => (store r.2 out_len 0).map fun out => some (out, out_len)

end SysInC.B64
