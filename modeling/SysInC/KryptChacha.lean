/-
The ChaCha20 of `krypt/krypt.c`.

`chacha20_crypt` leaves its counter behind the last block it took from, be it whole or not. Byte
`i` of the key stream is byte `i % 64` of the block with counter `1 + i / 64`; a text that begins
on a block is XORed with the key stream from its own position on (`chacha20_crypt_eq`).
-/
import SysInC.KeyStream
import SysInC.KryptSha256
import Mathlib.Tactic.Ring

set_option autoImplicit false

namespace SysInC.Krypt

def NONCE_SIZE : ℕ := 12

/-! ## The block function -/

/-- `QR(x[a], x[b], x[c], x[d])` -/
def QR (a b c d : ℕ) (x : List UInt32) : List UInt32 :=
  let turn (x : List UInt32) (a b d : ℕ) (n : UInt32) : List UInt32 :=
    let x := x.set a (x.getD a 0 + x.getD b 0)
    x.set d (ROTL (x.getD d 0 ^^^ x.getD a 0) n)
  turn (turn (turn (turn x a b d 16) c d b 12) a b d 8) c d b 7

/-- A turn of the loop: the columns, then the diagonals. -/
def double_round (x : List UInt32) : List UInt32 :=
  QR 3 4 9 14 (QR 2 7 8 13 (QR 1 6 11 12 (QR 0 5 10 15
    (QR 3 7 11 15 (QR 2 6 10 14 (QR 1 5 9 13 (QR 0 4 8 12 x)))))))

/-- The bytes of a word, the lowest first. -/
def out_bytes (v : UInt32) : List UInt8 :=
  [v.toUInt8, (v >>> 8).toUInt8, (v >>> 16).toUInt8, (v >>> 24).toUInt8]

def chacha20_block (key nonce : List UInt32) (counter : UInt32) : List UInt8 :=
  let state := [0x61707865, 0x3320646e, 0x79622d32, 0x6b206574] ++ key ++ [counter] ++ nonce
  (List.zipWith (· + ·) (double_round^[10] state) state).flatMap out_bytes

/-- `((uint32_t *)bytes)[i]` -/
def le_word (bytes : List UInt8) (i : ℕ) : UInt32 :=
  let byte (j : ℕ) : UInt32 := (bytes.getD (4 * i + j) 0).toUInt32
  byte 0 ||| (byte 1 <<< 8) ||| (byte 2 <<< 16) ||| (byte 3 <<< 24)

def key_words (key : List UInt8) : List UInt32 := (List.range 8).map (le_word key)
def nonce_words (nonce : List UInt8) : List UInt32 := (List.range 3).map (le_word nonce)

/-- The `while` loop of `chacha20_crypt`: the bytes it leaves in `data`, and the counter. -/
def chacha20_loop (k n : List UInt32) (counter : UInt32) (data : List UInt8) :
    List UInt8 × UInt32 :=
  if _h : 0 < data.length then
    let block := chacha20_block k n counter
    let chunk := if data.length > 64 then 64 else data.length
    let rest := chacha20_loop k n (counter + 1) (data.drop chunk)
    ((data.take chunk).zipWith (· ^^^ ·) block ++ rest.1, rest.2)
  else ([], counter)
termination_by data.length
decreasing_by
  rw [List.length_drop]
  split_ifs
  · omega
  · omega

def chacha20_crypt (key nonce : List UInt8) (counter : UInt32) (data : List UInt8) :
    List UInt8 × UInt32 :=
  chacha20_loop (key_words key) (nonce_words nonce) counter data

/-! ## The key stream -/

/-- The block counter starts at 1. -/
def key_stream (key nonce : List UInt8) (i : ℕ) : UInt8 :=
  (chacha20_block (key_words key) (nonce_words nonce) (1 + UInt32.ofNat (i / 64))).getD (i % 64) 0

theorem QR_length (a b c d : ℕ) (x : List UInt32) : (QR a b c d x).length = x.length := by
  simp only [QR, List.length_set]

theorem double_round_length (x : List UInt32) : (double_round x).length = x.length := by
  simp only [double_round, QR_length]

theorem double_rounds_length (n : ℕ) (x : List UInt32) :
    (double_round^[n] x).length = x.length := by
  induction n generalizing x with
  | zero => rfl
  | succ n ih => rw [Function.iterate_succ_apply, ih, double_round_length]

theorem chacha20_block_length {key nonce : List UInt32} (hkey : key.length = 8)
    (hnonce : nonce.length = 3) (counter : UInt32) :
    (chacha20_block key nonce counter).length = 64 := by
  have hbytes (l : List UInt32) : (l.flatMap out_bytes).length = 4 * l.length := by
    induction l with
    | nil => rfl
    | cons v l ih =>
        rw [List.flatMap_cons, List.length_append, ih, List.length_cons, Nat.mul_succ, Nat.add_comm]
        rfl
  rw [chacha20_block, hbytes, List.length_zipWith, double_rounds_length, Nat.min_self]
  simp only [List.length_append, List.length_cons, List.length_nil, hkey, hnonce]

variable (key nonce : List UInt8)

theorem block_length (counter : UInt32) :
    (chacha20_block (key_words key) (nonce_words nonce) counter).length = 64 :=
  chacha20_block_length (by rw [key_words, List.length_map, List.length_range])
    (by rw [nonce_words, List.length_map, List.length_range]) counter

/-- The block with counter `1 + j` is the key stream from byte `64 * j` on. -/
theorem block_getElem? (j i : ℕ) (hi : i < 64) :
    (chacha20_block (key_words key) (nonce_words nonce) (1 + UInt32.ofNat j))[i]?
      = some (key_stream key nonce (64 * j + i)) := by
  have hdiv : (64 * j + i) / 64 = j := by omega
  have hmod : (64 * j + i) % 64 = i := by omega
  have hlen := block_length key nonce (1 + UInt32.ofNat j)
  rw [key_stream, hdiv, hmod, List.getD_eq_getElem?_getD,
    List.getElem?_eq_getElem (hi.trans_eq hlen.symm), Option.getD_some]

theorem counter_succ (j : ℕ) : (1 + UInt32.ofNat j) + 1 = 1 + UInt32.ofNat (j + 1) := by
  rw [UInt32.ofNat_add, UInt32.add_assoc]
  rfl

theorem chacha20_loop_nil (k n : List UInt32) (counter : UInt32) :
    chacha20_loop k n counter [] = ([], counter) := by
  rw [chacha20_loop]
  rfl

theorem chacha20_loop_more (k n : List UInt32) (counter : UInt32) {data : List UInt8}
    (h : 64 < data.length) :
    chacha20_loop k n counter data
      = ((data.take 64).zipWith (· ^^^ ·) (chacha20_block k n counter)
          ++ (chacha20_loop k n (counter + 1) (data.drop 64)).1,
        (chacha20_loop k n (counter + 1) (data.drop 64)).2) := by
  rw [chacha20_loop, dif_pos (by omega)]
  dsimp only
  rw [if_pos h]

theorem chacha20_loop_last (k n : List UInt32) (counter : UInt32) {data : List UInt8}
    (hpos : 0 < data.length) (h : data.length ≤ 64) :
    chacha20_loop k n counter data
      = (data.zipWith (· ^^^ ·) (chacha20_block k n counter), counter + 1) := by
  rw [chacha20_loop, dif_pos hpos]
  dsimp only
  rw [if_neg h.not_gt, List.take_length, List.drop_length, chacha20_loop_nil, List.append_nil]

/-- A text within the block with counter `1 + j`. -/
theorem zipWith_block (j : ℕ) (part : List UInt8) (h : part.length ≤ 64) :
    part.zipWith (· ^^^ ·)
        (chacha20_block (key_words key) (nonce_words nonce) (1 + UInt32.ofNat j))
      = xor_stream (key_stream key nonce) (64 * j) part := by
  have hlen := block_length key nonce (1 + UInt32.ofNat j)
  apply xor_block
  · exact h.trans_eq hlen.symm
  · intro i hi
    exact block_getElem? key nonce j i (hi.trans_eq hlen)

/-- A text that begins on a block. -/
theorem chacha20_crypt_eq (j : ℕ) (data : List UInt8) :
    chacha20_crypt key nonce (1 + UInt32.ofNat j) data
      = (xor_stream (key_stream key nonce) (64 * j) data,
        1 + UInt32.ofNat (j + (data.length + 63) / 64)) := by
  rw [chacha20_crypt]
  induction hn : data.length using Nat.strong_induction_on generalizing j data with
  | _ n ih =>
    subst hn
    rcases Nat.eq_zero_or_pos data.length with hzero | hpos
    · rw [List.eq_nil_of_length_eq_zero hzero, chacha20_loop_nil]
      rfl
    · rcases Nat.lt_or_ge 64 data.length with hmore | hlast
      · -- a whole block, and a text that begins on the next one
        have htake : (data.take 64).length = 64 := List.length_take_of_le hmore.le
        have hdrop : (data.drop 64).length < data.length := by
          rw [List.length_drop]
          omega
        have hblocks : j + 1 + ((data.drop 64).length + 63) / 64
            = j + (data.length + 63) / 64 := by
          rw [List.length_drop]
          omega
        rw [chacha20_loop_more _ _ _ hmore, counter_succ, ih _ hdrop (j + 1) (data.drop 64) rfl,
          zipWith_block key nonce j _ htake.le, hblocks, xor_stream_take_drop _ hmore.le]
        rfl
      · have hblocks : (data.length + 63) / 64 = 1 := by omega
        rw [chacha20_loop_last _ _ _ hpos hlast, counter_succ, zipWith_block key nonce j _ hlast,
          hblocks]

end SysInC.Krypt
