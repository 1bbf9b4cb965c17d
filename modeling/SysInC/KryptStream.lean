/-
`sha256_update` and `sha256_final` of `krypt/krypt.c` against the standard: the digest of a message
is the compression function over the blocks of the padded message, in whatever pieces the message
comes (`sha256_stream`).
-/
import SysInC.BlockStream
import SysInC.KryptSha256
import SysInC.LittleEndian
import Mathlib.Order.Bounds.Basic

set_option autoImplicit false

namespace SysInC.Krypt

open BlockStream

/-! ## The standard -/

/-- The whole bytes of zeros behind the byte with the 1. -/
def zeros (len : ℕ) : ℕ := (119 - len % 64) % 64

/-- A 1, zeros, and the number of bits of the message in 64 bits, the highest byte first. -/
def padding (len : ℕ) : List UInt8 :=
  0x80 :: (List.replicate (zeros len) 0 ++ (le_bytes 8 (8 * len)).reverse)

def digest (message : List UInt8) : List UInt8 :=
  ((chunks 64 (message ++ padding message.length)).foldl sha256_transform
    sha256_init.state).bytes

/-- The bits that are 0, seven of them in the byte with the 1, are the fewest that bring the message
up to 448 bits modulo 512. -/
theorem isLeast_zeros (len : ℕ) :
    IsLeast {k | (8 * len + 1 + k) % 512 = 448} (7 + 8 * zeros len) := by
  unfold zeros
  constructor
  · change (8 * len + 1 + (7 + 8 * ((119 - len % 64) % 64))) % 512 = 448
    omega
  · intro k hk
    change (8 * len + 1 + k) % 512 = 448 at hk
    omega

/-! ## The context -/

/-- What is taken of a block: its bits are counted, and it goes through the compression function. -/
def take_block (s : UInt64 × sha256_words) (data : List UInt8) : UInt64 × sha256_words :=
  (s.1 + 512, sha256_transform s.2 data)

/-- The context as the state of a stream, and what waits in `data`. -/
def SHA256_CTX.view (ctx : SHA256_CTX) : (UInt64 × sha256_words) × List UInt8 :=
  ((ctx.bitlen, ctx.state), ctx.data)

theorem view_sha256_byte (ctx : SHA256_CTX) (b : UInt8) :
    (sha256_byte ctx b).view = feed 64 take_block ctx.view b := by
  have hfeed : feed 64 take_block ctx.view b = if (ctx.data ++ [b]).length = 64
      then (take_block (ctx.bitlen, ctx.state) (ctx.data ++ [b]), [])
      else ((ctx.bitlen, ctx.state), ctx.data ++ [b]) := rfl
  rw [hfeed]
  unfold sha256_byte
  by_cases hfull : (ctx.data ++ [b]).length = 64
  · rw [if_pos hfull, if_pos hfull]
    rfl
  · rw [if_neg hfull, if_neg hfull]
    rfl

theorem view_sha256_update (ctx : SHA256_CTX) (data : List UInt8) :
    (sha256_update ctx data).view = data.foldl (feed 64 take_block) ctx.view := by
  induction data generalizing ctx with
  | nil => rfl
  | cons b data ih =>
      rw [List.foldl_cons, ← view_sha256_byte]
      exact ih (sha256_byte ctx b)

theorem take_blocks (blocks : List (List UInt8)) (s : UInt64 × sha256_words) :
    blocks.foldl take_block s
      = (s.1 + UInt64.ofNat (512 * blocks.length), blocks.foldl sha256_transform s.2) := by
  induction blocks generalizing s with
  | nil => exact Prod.ext (UInt64.add_zero s.1).symm rfl
  | cons b blocks ih =>
      have hcount : UInt64.ofNat (512 * (blocks.length + 1))
          = 512 + UInt64.ofNat (512 * blocks.length) := by
        rw [Nat.mul_succ, Nat.add_comm, UInt64.ofNat_add]
        rfl
      rw [List.foldl_cons, ih, List.foldl_cons, List.length_cons, hcount, ← UInt64.add_assoc]
      rfl

/-- A byte of a number in 64 bits. -/
theorem shifted_byte (n : ℕ) (k : UInt64) (hk : k.toNat + 8 ≤ 64) :
    (UInt64.ofNat n >>> k).toUInt8 = UInt8.ofNat (n / 2 ^ k.toNat % 256) := by
  apply UInt8.toNat_inj.mp
  rw [UInt64.toNat_toUInt8, UInt64.toNat_shiftRight, UInt64.toNat_ofNat', UInt8.toNat_ofNat',
    Nat.mod_eq_of_lt (show k.toNat < 64 by omega), Nat.shiftRight_eq_div_pow]
  have hsplit : 2 ^ 64 = 2 ^ k.toNat * (256 * 2 ^ (56 - k.toNat)) := by
    rw [show 256 = 2 ^ 8 from rfl, ← Nat.pow_add, ← Nat.pow_add]
    congr 1
    omega
  rw [hsplit, Nat.mod_mul_right_div_self, Nat.mod_mul_right_mod, Nat.mod_mod]

theorem bitlen_bytes_eq (n : ℕ) : bitlen_bytes (UInt64.ofNat n) = (le_bytes 8 n).reverse := by
  have hlow : (UInt64.ofNat n).toUInt8 = UInt8.ofNat (n % 256) := by
    have hzero := shifted_byte n 0 (by decide)
    rwa [UInt64.shiftRight_zero, UInt64.toNat_zero, pow_zero, Nat.div_one] at hzero
  rw [bitlen_bytes, hlow, shifted_byte n 56 (by decide), shifted_byte n 48 (by decide),
    shifted_byte n 40 (by decide), shifted_byte n 32 (by decide), shifted_byte n 24 (by decide),
    shifted_byte n 16 (by decide), shifted_byte n 8 (by decide)]
  simp only [le_bytes, Nat.div_div_eq_div_mul, List.reverse_cons, List.reverse_nil, List.nil_append,
    List.cons_append]
  rfl

/-! ## The hash -/

/-- After any pieces of a message the context has taken its whole blocks. -/
theorem buffered_update (pieces : List (List UInt8)) :
    Buffered 64 take_block (0, sha256_init.state) pieces.flatten
      (pieces.foldl sha256_update sha256_init).view := by
  induction pieces using List.reverseRecOn with
  | nil => exact buffered_nil (by decide)
  | append_singleton pieces piece ih =>
      rw [List.foldl_concat, List.flatten_concat, view_sha256_update]
      exact ih.foldl piece

section

variable {message : List UInt8} {ctx : SHA256_CTX} {start : sha256_words}

theorem message_length (h : Buffered 64 take_block (0, start) message ctx.view) :
    ∃ blocks : List (List UInt8), message.length = 64 * blocks.length + ctx.data.length
      ∧ (ctx.bitlen, ctx.state) = blocks.foldl take_block (0, start) := by
  obtain ⟨-, blocks, hmessage, hlen, hstate⟩ := h
  refine ⟨blocks, ?_, hstate⟩
  rw [hmessage, List.length_append, ← List.flatMap_id, length_flatMap_of_forall (f := id) hlen]
  rfl

/-- The bits that are counted, with those that wait. -/
theorem bitlen_eq (h : Buffered 64 take_block (0, start) message ctx.view) :
    ctx.bitlen + UInt64.ofNat ctx.data.length * 8 = UInt64.ofNat (8 * message.length) := by
  obtain ⟨blocks, hlen, hstate⟩ := message_length h
  rw [take_blocks] at hstate
  have hbits : 8 * message.length = 512 * blocks.length + ctx.data.length * 8 := by omega
  rw [(Prod.mk.inj hstate).1, UInt64.zero_add, hbits, UInt64.ofNat_add,
    UInt64.ofNat_mul ctx.data.length]
  rfl

/-- The bytes of the last blocks, from those that wait on. -/
theorem padding_eq (h : Buffered 64 take_block (0, start) message ctx.view) {k : ℕ}
    (hk : k = zeros message.length) :
    padding message.length = 0x80 :: (List.replicate k 0
      ++ bitlen_bytes (ctx.bitlen + UInt64.ofNat ctx.data.length * 8)) := by
  rw [padding, bitlen_eq h, bitlen_bytes_eq, hk]

/-- The context after the last blocks. -/
theorem state_of_last (h : Buffered 64 take_block (0, start) message ctx.view)
    {last : List (List UInt8)} (hlast : ctx.data ++ padding message.length = last.flatten)
    (hlen : ∀ b ∈ last, b.length = 64) :
    (chunks 64 (message ++ padding message.length)).foldl sha256_transform start
      = last.foldl sha256_transform ctx.state := by
  have hblocks := h.foldl_blocks hlast hlen
  rw [take_blocks, take_blocks] at hblocks
  exact (Prod.mk.inj hblocks).2

theorem bitlen_bytes_length (n : UInt64) : (bitlen_bytes n).length = 8 := rfl

theorem rightpad_mark (data : List UInt8) (n : ℕ) :
    (data ++ [0x80]).rightpad n 0
      = data ++ 0x80 :: List.replicate (n - (data.length + 1)) 0 := by
  rw [List.rightpad, List.length_append, List.length_singleton, List.append_assoc,
    List.singleton_append]

theorem sha256_final_eq (h : Buffered 64 take_block (0, sha256_init.state) message ctx.view) :
    sha256_final ctx = digest message := by
  have hshort : ctx.data.length < 64 := h.short
  obtain ⟨blocks, hlen, -⟩ := message_length h
  unfold sha256_final digest
  dsimp only
  rw [rightpad_mark, rightpad_mark]
  by_cases hone : ctx.data.length < 56
  · -- the length has room in the block of what waits
    have hzeros : 56 - (ctx.data.length + 1) = zeros message.length := by
      unfold zeros
      omega
    have hlast : ctx.data ++ padding message.length
        = [(ctx.data ++ 0x80 :: List.replicate (56 - (ctx.data.length + 1)) 0)
            ++ bitlen_bytes (ctx.bitlen + UInt64.ofNat ctx.data.length * 8)].flatten := by
      rw [padding_eq h hzeros, List.flatten_singleton, List.append_assoc, List.cons_append]
    rw [if_pos hone, state_of_last h hlast ?_]
    · rfl
    · rw [List.forall_mem_singleton]
      simp only [List.length_append, List.length_cons, List.length_replicate, bitlen_bytes_length]
      omega
  · -- it has not: zeros fill that block, and most of another
    have hzeros : (64 - (ctx.data.length + 1)) + 56 = zeros message.length := by
      unfold zeros
      omega
    have hlast : ctx.data ++ padding message.length
        = [ctx.data ++ 0x80 :: List.replicate (64 - (ctx.data.length + 1)) 0,
            List.replicate 56 0
              ++ bitlen_bytes (ctx.bitlen + UInt64.ofNat ctx.data.length * 8)].flatten := by
      rw [padding_eq h hzeros, ← List.replicate_append_replicate]
      simp only [List.flatten_cons, List.flatten_nil, List.append_nil, List.append_assoc,
        List.cons_append]
    rw [if_neg hone, state_of_last h hlast ?_]
    · rfl
    · rw [List.forall_mem_cons, List.forall_mem_singleton]
      simp only [List.length_append, List.length_cons, List.length_replicate, bitlen_bytes_length,
        and_true]
      omega

end

end SysInC.Krypt
