/-
`zpack.c`'s byte-aligned codec: `zpack2_compress` and `zpack2_decompress`,
translated loop by loop.

A buffer that the C code fills through `dst[out_pos++]` is the list of the bytes
written so far, and `out_pos` is its length; the encoder writes without looking at
`dst_max` except in its admission test and its main loop's condition, and so
does the model. The decoder reads `src` only behind an index test, so its reads carry
their bound. `size_t` quantities are natural numbers: every one of them counts
bytes of a buffer. The one narrow type that matters is the hash table's
`int32_t`, whose entries are kept through `to_int32`.
-/
import SysInC.Lz77

set_option autoImplicit false

namespace SysInC.Zpack

open SysInC.Lz77

/-! ## Constants and word reads -/

def HASH_BITS : ℕ := 14
def HASH_SIZE : ℕ := 1 <<< HASH_BITS
def MAX_DISTANCE : ℕ := 65535

/-- `src[i]`. -/
def byte_at (src : List UInt8) (i : ℕ) : UInt8 := src.getD i 0

/-- Four bytes as a little-endian word. -/
def read32 (src : List UInt8) (i : ℕ) : ℕ :=
  (byte_at src i).toNat + 256 * (byte_at src (i + 1)).toNat
    + 65536 * (byte_at src (i + 2)).toNat + 16777216 * (byte_at src (i + 3)).toNat

/-- Fibonacci hash of a 32-bit word. -/
def hash4 (val : ℕ) : ℕ := (val * 2654435761 % 2 ^ 32) >>> (32 - HASH_BITS)

/-- The cast `(int32_t)n`. -/
def to_int32 (n : ℕ) : ℤ :=
  if n % 4294967296 < 2147483648 then (n % 4294967296 : ℕ) else (n % 4294967296 : ℕ) - 4294967296

/-- `d <= k` on `size_t`, where a negative difference has wrapped past every
buffer size. -/
def size_le (d : ℤ) (k : ℕ) : Prop := 0 ≤ d ∧ d ≤ k

instance (d : ℤ) (k : ℕ) : Decidable (size_le d k) := inferInstanceAs (Decidable (_ ∧ _))

/-! ## `zpack2_compress` -/

/-- The locals of `zpack2_compress`; `out_pos` is `dst.length`. -/
structure compress_state where
  table : ℕ → ℤ
  in_pos : ℕ
  anchor : ℕ
  dst : List UInt8

/-- The match-length loop, from `match_len` on. -/
def match_extend (src : List UInt8) (ref in_pos match_len : ℕ) : ℕ :=
  if in_pos + match_len < src.length
      ∧ byte_at src (ref + match_len) = byte_at src (in_pos + match_len) then
    match_extend src ref in_pos (match_len + 1)
  else match_len
termination_by src.length - (in_pos + match_len)

/-- The extension bytes of a length: `255` as long as it fits, then the rest. -/
def emit_ext (rem : ℕ) (dst : List UInt8) : List UInt8 :=
  if 255 ≤ rem then emit_ext (rem - 255) (dst ++ [255]) else dst ++ [UInt8.ofNat rem]
termination_by rem

/-- The body of the match branch: token, literal length, literals, offset, match
length. -/
def emit_match (src : List UInt8) (anchor in_pos ref match_len : ℕ) (dst : List UInt8) :
    List UInt8 :=
  let lit_len := in_pos - anchor
  let offset := (in_pos - ref) % 65536
  let token : UInt8 := if lit_len < 15 then UInt8.ofNat (lit_len <<< 4) else UInt8.ofNat (15 <<< 4)
  let m_token := match_len - 4
  let token := if m_token < 15 then token ||| UInt8.ofNat m_token else token ||| 15
  let dst := dst ++ [token]
  let dst := if 15 ≤ lit_len then emit_ext (lit_len - 15) dst else dst
  let dst := if 0 < lit_len then dst ++ (src.drop anchor).take lit_len else dst
  let dst := dst ++ [UInt8.ofNat (offset &&& 0xFF)]
  let dst := dst ++ [UInt8.ofNat (offset >>> 8)]
  if 15 ≤ m_token then emit_ext (m_token - 15) dst else dst

/-- The literals left over when the main loop stops. -/
def emit_tail (src : List UInt8) (anchor : ℕ) (dst : List UInt8) : List UInt8 :=
  let lit_len := src.length - anchor
  if 0 < lit_len then
    let token : UInt8 := if lit_len < 15 then UInt8.ofNat (lit_len <<< 4) else UInt8.ofNat (15 <<< 4)
    let dst := dst ++ [token]
    let dst := if 15 ≤ lit_len then emit_ext (lit_len - 15) dst else dst
    dst ++ (src.drop anchor).take lit_len
  else dst

/-- One iteration of the main loop. -/
def compress_step (src : List UInt8) (st : compress_state) : compress_state :=
  let h := hash4 (read32 src st.in_pos)
  let ref := st.table h
  let table := Function.update st.table h (to_int32 st.in_pos)
  if ref ≠ -1 ∧ size_le ((st.in_pos : ℤ) - ref) MAX_DISTANCE
      ∧ read32 src ref.toNat = read32 src st.in_pos then
    let match_len := match_extend src ref.toNat st.in_pos 4
    { table := table
      in_pos := st.in_pos + match_len
      anchor := st.in_pos + match_len
      dst := emit_match src st.anchor st.in_pos ref.toNat match_len st.dst }
  else { st with table := table, in_pos := st.in_pos + 1 }

theorem le_match_extend (src : List UInt8) (ref in_pos match_len : ℕ) :
    match_len ≤ match_extend src ref in_pos match_len := by
  fun_induction match_extend src ref in_pos match_len with
  | case1 _ _ ih => omega
  | case2 => exact le_rfl

theorem in_pos_lt_compress_step (src : List UInt8) (st : compress_state) :
    st.in_pos < (compress_step src st).in_pos := by
  rw [compress_step]
  split_ifs
  · have h := le_match_extend src (st.table (hash4 (read32 src st.in_pos))).toNat st.in_pos 4
    dsimp only
    omega
  · exact Nat.lt_succ_self _

/-- The main loop. -/
def compress_loop (src : List UInt8) (dst_max : ℕ) (st : compress_state) : compress_state :=
  if st.in_pos + 4 ≤ src.length ∧ st.dst.length + 32 < dst_max then
    compress_loop src dst_max (compress_step src st)
  else st
termination_by src.length - st.in_pos
decreasing_by
  have h := in_pos_lt_compress_step src st
  omega

def compress_init : compress_state := ⟨fun _ => -1, 0, 0, []⟩

/-- The bytes `zpack2_compress` writes from `dst[0]` on; its return value is
their number. -/
def zpack2_compress (src : List UInt8) (dst_max : ℕ) : List UInt8 :=
  if src.length = 0 ∨ dst_max < src.length + 64 then []
  else
    let st := compress_loop src dst_max compress_init
    emit_tail src st.anchor st.dst

/-! ## `zpack2_decompress` -/

/-- The `do … while (s == 255)` loop that adds up a length; `none` is its
`return 0`. -/
def read_ext (src : List UInt8) (in_pos len : ℕ) : Option (ℕ × ℕ) :=
  if h : in_pos < src.length then
    let s := src[in_pos]
    if s = 255 then read_ext src (in_pos + 1) (len + s.toNat)
    else some (in_pos + 1, len + s.toNat)
  else none
termination_by src.length - in_pos

/-- A nibble of the token, with its extension bytes when it is full. -/
def read_len (src : List UInt8) (in_pos nibble : ℕ) : Option (ℕ × ℕ) :=
  if nibble = 15 then read_ext src in_pos nibble else some (in_pos, nibble)

/-- How one iteration of the decoder's loop ends. -/
inductive decompress_outcome where
  /-- `return 0`, with the bytes written before it. -/
  | fail (dst : List UInt8)
  /-- `break` after the final literals. -/
  | done (dst : List UInt8)
  /-- The next sequence. -/
  | next (in_pos : ℕ) (dst : List UInt8)

open decompress_outcome

/-- The second half of an iteration, from the end-of-input test on. -/
def decompress_match (src : List UInt8) (dst_max : ℕ) (token : UInt8) (in_pos : ℕ)
    (dst : List UInt8) : decompress_outcome :=
  if src.length ≤ in_pos then done dst
  else if h : src.length < in_pos + 2 then fail dst
  else
    let offset := (src[in_pos].toNat ||| (src[in_pos + 1].toNat <<< 8)) % 65536
    if offset = 0 ∨ dst.length < offset then fail dst
    else
      match read_len src (in_pos + 2) (token.toNat &&& 0x0F) with
      | none => fail dst
      | some (in_pos, match_len) =>
        let match_len := match_len + 4
        if dst_max < dst.length + match_len then fail dst
        else next in_pos (copy_back 0 offset match_len dst)

/-- One iteration of the decoder's loop. -/
def decompress_step (src : List UInt8) (dst_max in_pos : ℕ) (h : in_pos < src.length)
    (dst : List UInt8) : decompress_outcome :=
  let token := src[in_pos]
  match read_len src (in_pos + 1) (token.toNat >>> 4) with
  | none => fail dst
  | some (in_pos, lit_len) =>
    if dst_max < dst.length + lit_len ∨ src.length < in_pos + lit_len then fail dst
    else
      decompress_match src dst_max token (in_pos + lit_len)
        (dst ++ (src.drop in_pos).take lit_len)

theorem lt_read_ext {src : List UInt8} {i n j m : ℕ} (h : read_ext src i n = some (j, m)) :
    i < j := by
  fun_induction read_ext src i n with
  | case1 i n _ _ _ ih => exact Nat.lt_of_succ_lt (ih h)
  | case2 i n =>
      simp only [Option.some.injEq, Prod.mk.injEq] at h
      omega
  | case3 => simp at h

theorem le_read_len {src : List UInt8} {i n j m : ℕ} (h : read_len src i n = some (j, m)) :
    i ≤ j := by
  rw [read_len] at h
  split_ifs at h
  · exact (lt_read_ext h).le
  · simp only [Option.some.injEq, Prod.mk.injEq] at h
    omega

theorem lt_of_decompress_match {src : List UInt8} {dst_max i j : ℕ} {t : UInt8}
    {dst dst' : List UInt8} (h : decompress_match src dst_max t i dst = next j dst') : i < j := by
  simp only [decompress_match] at h
  split_ifs at h
  split at h
  · simp at h
  · rename_i k m hk
    have := le_read_len hk
    split_ifs at h
    simp only [next.injEq] at h
    omega

theorem lt_of_decompress_step {src : List UInt8} {dst_max i j : ℕ} {hi : i < src.length}
    {dst dst' : List UInt8} (h : decompress_step src dst_max i hi dst = next j dst') : i < j := by
  simp only [decompress_step] at h
  split at h
  · simp at h
  · rename_i k m hk
    have := le_read_len hk
    split_ifs at h
    have := lt_of_decompress_match h
    omega

/-- The decoder's loop: the value returned, and the bytes written to `dst`. -/
def decompress_loop (src : List UInt8) (dst_max in_pos : ℕ) (dst : List UInt8) :
    ℕ × List UInt8 :=
  if h : in_pos < src.length ∧ dst.length < dst_max then
    match _hs : decompress_step src dst_max in_pos h.1 dst with
    | fail dst => (0, dst)
    | done dst => (dst.length, dst)
    | next in_pos dst => decompress_loop src dst_max in_pos dst
  else (dst.length, dst)
termination_by src.length - in_pos
decreasing_by
  have := lt_of_decompress_step _hs
  omega

def zpack2_decompress (src : List UInt8) (dst_max : ℕ) : ℕ × List UInt8 :=
  decompress_loop src dst_max 0 []

end SysInC.Zpack
