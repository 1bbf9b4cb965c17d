/-
The SHA-256 of `krypt/krypt.c`, and the keys that are derived with it.

`sha256_update` takes one byte after the other, so the hash of a text in pieces is the hash of
the text (`sha256_update_append`).
-/
import SysInC.KernelText

set_option autoImplicit false

namespace SysInC.Krypt

open SysInC.Kvfs (literal)

/-! ## The compression function -/

/-- The constants of the source; the one before the last is not that of the standard. -/
def K : List UInt32 :=
  [ 0x428a2f98, 0x71374491, 0xb5c0fbcf, 0xe9b5dba5, 0x3956c25b, 0x59f111f1, 0x923f82a4, 0xab1c5ed5,
    0xd807aa98, 0x12835b01, 0x243185be, 0x550c7dc3, 0x72be5d74, 0x80deb1fe, 0x9bdc06a7, 0xc19bf174,
    0xe49b69c1, 0xefbe4786, 0x0fc19dc6, 0x240ca1cc, 0x2de92c6f, 0x4a7484aa, 0x5cb0a9dc, 0x76f988da,
    0x983e5152, 0xa831c66d, 0xb00327c8, 0xbf597fc7, 0xc6e00bf3, 0xd5a79147, 0x06ca6351, 0x14292967,
    0x27b70a85, 0x2e1b2138, 0x4d2c6dfc, 0x53380d13, 0x650a7354, 0x766a0abb, 0x81c2c92e, 0x92722c85,
    0xa2bfe8a1, 0xa81a664b, 0xc24b8b70, 0xc76c51a3, 0xd192e819, 0xd6990624, 0xf40e3585, 0x106aa070,
    0x19a4c116, 0x1e376c08, 0x2748774c, 0x34b0bcb5, 0x391c0cb3, 0x4ed8aa4a, 0x5b9cca4f, 0x682e6ff3,
    0x748f82ee, 0x78a5636f, 0x84c87814, 0x8cc70208, 0x90befffa, 0xa4506ceb, 0xbef4a3f7, 0xc67178f2 ]

def ROTL (a b : UInt32) : UInt32 := (a <<< b) ||| (a >>> (32 - b))
def ROTR (a b : UInt32) : UInt32 := (a >>> b) ||| (a <<< (32 - b))
def CH (x y z : UInt32) : UInt32 := (x &&& y) ^^^ (~~~x &&& z)
def MAJ (x y z : UInt32) : UInt32 := (x &&& y) ^^^ (x &&& z) ^^^ (y &&& z)
def EP0 (x : UInt32) : UInt32 := ROTR x 2 ^^^ ROTR x 13 ^^^ ROTR x 22
def EP1 (x : UInt32) : UInt32 := ROTR x 6 ^^^ ROTR x 11 ^^^ ROTR x 25
def SIG0 (x : UInt32) : UInt32 := ROTR x 7 ^^^ ROTR x 18 ^^^ (x >>> 3)
def SIG1 (x : UInt32) : UInt32 := ROTR x 17 ^^^ ROTR x 19 ^^^ (x >>> 10)

/-- The eight words of `state`, and the variables of `sha256_transform`. -/
structure sha256_words where
  a : UInt32
  b : UInt32
  c : UInt32
  d : UInt32
  e : UInt32
  f : UInt32
  g : UInt32
  h : UInt32
  deriving DecidableEq

/-- `m[i]` for `i < 16`. -/
def block_word (data : List UInt8) (i : ℕ) : UInt32 :=
  let byte (j : ℕ) : UInt32 := (data.getD (4 * i + j) 0).toUInt32
  (byte 0 <<< 24) ||| (byte 1 <<< 16) ||| (byte 2 <<< 8) ||| byte 3

/-- The loop that fills the rest of `m`. -/
def extend_words : ℕ → List UInt32 → List UInt32
  | 0, m => m
  | n + 1, m =>
    let i := m.length
    extend_words n (m ++ [SIG1 (m.getD (i - 2) 0) + m.getD (i - 7) 0 + SIG0 (m.getD (i - 15) 0)
      + m.getD (i - 16) 0])

def sha256_round (v : sha256_words) (km : UInt32 × UInt32) : sha256_words :=
  let t1 := v.h + EP1 v.e + CH v.e v.f v.g + km.1 + km.2
  let t2 := EP0 v.a + MAJ v.a v.b v.c
  { h := v.g, g := v.f, f := v.e, e := v.d + t1, d := v.c, c := v.b, b := v.a, a := t1 + t2 }

def sha256_transform (state : sha256_words) (data : List UInt8) : sha256_words :=
  let m := extend_words 48 ((List.range 16).map (block_word data))
  let v := (K.zip m).foldl sha256_round state
  { a := state.a + v.a, b := state.b + v.b, c := state.c + v.c, d := state.d + v.d,
    e := state.e + v.e, f := state.f + v.f, g := state.g + v.g, h := state.h + v.h }

/-! ## The hash -/

/-- `data` are its first `datalen` bytes. -/
structure SHA256_CTX where
  data : List UInt8
  bitlen : UInt64
  state : sha256_words

def sha256_init : SHA256_CTX where
  data := []
  bitlen := 0
  state :=
    { a := 0x6a09e667, b := 0xbb67ae85, c := 0x3c6ef372, d := 0xa54ff53a,
      e := 0x510e527f, f := 0x9b05688c, g := 0x1f83d9ab, h := 0x5be0cd19 }

/-- A turn of the loop of `sha256_update`. -/
def sha256_byte (ctx : SHA256_CTX) (b : UInt8) : SHA256_CTX :=
  let data := ctx.data ++ [b]
  if data.length = 64 then
    { data := [], bitlen := ctx.bitlen + 512, state := sha256_transform ctx.state data }
  else { ctx with data := data }

def sha256_update (ctx : SHA256_CTX) (data : List UInt8) : SHA256_CTX := data.foldl sha256_byte ctx

/-- The bytes of a word, the highest first. -/
def word_bytes (w : UInt32) : List UInt8 :=
  [(w >>> 24).toUInt8, (w >>> 16).toUInt8, (w >>> 8).toUInt8, w.toUInt8]

def bitlen_bytes (n : UInt64) : List UInt8 :=
  [(n >>> 56).toUInt8, (n >>> 48).toUInt8, (n >>> 40).toUInt8, (n >>> 32).toUInt8,
    (n >>> 24).toUInt8, (n >>> 16).toUInt8, (n >>> 8).toUInt8, n.toUInt8]

def sha256_words.bytes (w : sha256_words) : List UInt8 :=
  [w.a, w.b, w.c, w.d, w.e, w.f, w.g, w.h].flatMap word_bytes

def sha256_final (ctx : SHA256_CTX) : List UInt8 :=
  let bitlen := ctx.bitlen + UInt64.ofNat ctx.data.length * 8
  if ctx.data.length < 56 then
    (sha256_transform ctx.state ((ctx.data ++ [0x80]).rightpad 56 0 ++ bitlen_bytes bitlen)).bytes
  else
    let state := sha256_transform ctx.state ((ctx.data ++ [0x80]).rightpad 64 0)
    (sha256_transform state (List.replicate 56 0 ++ bitlen_bytes bitlen)).bytes

theorem sha256_update_append (ctx : SHA256_CTX) (a b : List UInt8) :
    sha256_update ctx (a ++ b) = sha256_update (sha256_update ctx a) b := List.foldl_append

@[simp] theorem sha256_final_length (ctx : SHA256_CTX) : (sha256_final ctx).length = 32 := by
  unfold sha256_final
  dsimp only
  split_ifs
  · rfl
  · rfl

/-! ## Keys -/

def SALT_SIZE : ℕ := 16

/-- `current_hash` after `n` rounds. -/
def hash_rounds (salt : List UInt8) : ℕ → List UInt8 → List UInt8
  | 0, current_hash => current_hash
  | n + 1, current_hash =>
    hash_rounds salt n
      (sha256_final (sha256_update (sha256_update sha256_init current_hash) salt))

/-- `key_out` and `mac_key_out`. Irreducible, for nothing depends on the rounds. -/
@[irreducible] def derive_key (password salt : List UInt8) : List UInt8 × List UInt8 :=
  let buffer := password.take 64 ++ salt
  let current_hash := hash_rounds salt 50000 (sha256_final (sha256_update sha256_init buffer))
  (current_hash, sha256_final (sha256_update (sha256_update sha256_init current_hash)
    (literal "INTEGRITY_KEY_2.0")))

end SysInC.Krypt
