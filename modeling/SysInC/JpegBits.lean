/-
`njShowBits`, `njSkipBits` and `njGetBits` of `src/imgview/imgview.c`: the bits of a scan.

The bits come from bytes, from which the byte behind each 0xFF is left out, whatever it is; behind
the last byte there are ones without end. `buf` is never cleared: what is shifted out of its 32
bits is gone, and of the rest the low `bufbits` ones are still to come.
-/
import SysInC.BitStream
import SysInC.Radix
import SysInC.WhileLoop
import Mathlib.Data.Nat.Bitwise

set_option autoImplicit false

namespace SysInC.Jpeg

open BitStream PartialRun

/-! ## The source -/

/-- What `nj_context_t` has for the scan. `buf` is an `int`, from which bits are shifted out to the
left. -/
structure nj_bits_t where
  pos : ℕ
  size : ℤ
  buf : BitVec 32
  bufbits : ℕ

/-- A turn of the loop of `njShowBits`. The byte behind an 0xFF is skipped, whether it is 0 or a
marker. -/
def load_byte (raw : List UInt8) (ctx : nj_bits_t) : Option nj_bits_t :=
  if ctx.size ≤ 0 then
    some { ctx with buf := (ctx.buf <<< 8) ||| 0xFF, bufbits := ctx.bufbits + 8 }
  else
    (raw[ctx.pos]?).bind fun newbyte =>
      let ctx : nj_bits_t :=
        ⟨ctx.pos + 1, ctx.size - 1, (ctx.buf <<< 8) ||| newbyte.toBitVec.setWidth 32,
          ctx.bufbits + 8⟩
      if newbyte = 0xFF ∧ 0 < ctx.size then
        (raw[ctx.pos]?).map fun _marker => { ctx with pos := ctx.pos + 1, size := ctx.size - 1 }
      else some ctx

/-- The bits, as a number, and the context behind the loop. -/
def njShowBits (raw : List UInt8) (ctx : nj_bits_t) (bits : ℕ) : Option (ℕ × nj_bits_t) :=
  if bits = 0 then some (0, ctx)
  else
    (WhileLoop.run (fun ctx => decide (ctx.bufbits < bits)) (load_byte raw) bits ctx).map fun ctx =>
      ((ctx.buf.sshiftRight (ctx.bufbits - bits) &&& ((1#32 <<< bits) - 1#32)).toNat, ctx)

def njSkipBits (raw : List UInt8) (ctx : nj_bits_t) (bits : ℕ) : Option nj_bits_t :=
  (if ctx.bufbits < bits then (njShowBits raw ctx bits).map Prod.snd else some ctx).map fun ctx =>
    { ctx with bufbits := ctx.bufbits - bits }

def njGetBits (raw : List UInt8) (ctx : nj_bits_t) (bits : ℕ) : Option (ℕ × nj_bits_t) :=
  (njShowBits raw ctx bits).bind fun (res, ctx) =>
    (njSkipBits raw ctx bits).map fun ctx => (res, ctx)

/-! ## The stream -/

/-- Bytes without those that are skipped. -/
def unstuff : List UInt8 → List UInt8
  | [] => []
  | [b] => [b]
  | b :: marker :: bytes =>
    if b = 0xFF then b :: unstuff bytes else b :: unstuff (marker :: bytes)

/-- The bits of bytes. -/
def byte_bits (bytes : List UInt8) : List Bool := bytes.flatMap fun b => bits 8 b.toNat

/-- The bits of a scan. -/
def scan_bits (bytes : List UInt8) : Stream' Bool :=
  byte_bits (unstuff bytes) ++ₛ Stream'.const true

/-- The bits that are in the buffer. -/
def nj_bits_t.pending (ctx : nj_bits_t) : List Bool := bits ctx.bufbits ctx.buf.toNat

/-- The bits to come. -/
def nj_bits_t.rest (raw : List UInt8) (ctx : nj_bits_t) : Stream' Bool :=
  ctx.pending ++ₛ scan_bits ((raw.drop ctx.pos).take ctx.size.toNat)

/-- The reader stands before the bits `s`, and the next window fits its buffer. -/
structure Reads (raw : List UInt8) (s : Stream' Bool) (ctx : nj_bits_t) : Prop where
  inside : (ctx.pos : ℤ) + ctx.size ≤ raw.length
  room : ctx.bufbits ≤ 23
  rest : ctx.rest raw = s

variable {raw : List UInt8} {s : Stream' Bool} {ctx : nj_bits_t}

/-! ## A byte -/

theorem bits_mod {n k : ℕ} (h : n ≤ k) (v : ℕ) : bits n (v % 2 ^ k) = bits n v := by
  apply value_inj
  · rw [bits_length, bits_length]
  · rw [value_bits, value_bits, Nat.mod_mod_of_dvd _ (pow_dvd_pow 2 h)]

theorem bits_split (n m v : ℕ) : bits (n + m) v = bits n (v / 2 ^ m) ++ bits m v := by
  conv_lhs => rw [← Nat.div_add_mod' v (2 ^ m)]
  rw [bits_add n _ (Nat.mod_lt v (Nat.two_pow_pos m)), bits_mod le_rfl]

/-- A byte comes behind what is in the buffer. -/
theorem bits_shift {n : ℕ} (hn : n ≤ 24) (buf : BitVec 32) {b : BitVec 32} (hb : b.toNat < 2 ^ 8) :
    bits (n + 8) ((buf <<< 8) ||| b).toNat = bits n buf.toNat ++ bits 8 b.toNat := by
  have hshift : buf.toNat <<< 8 % 2 ^ 32 = (buf.toNat % 2 ^ 24) <<< 8 := by
    rw [Nat.shiftLeft_eq, Nat.shiftLeft_eq]
    omega
  rw [BitVec.toNat_or, BitVec.toNat_shiftLeft, hshift, Radix.shiftLeft_or _ hb, bits_add n _ hb,
    bits_mod hn]

theorem byte_bits_cons (b : UInt8) (bytes : List UInt8) :
    byte_bits (b :: bytes) = bits 8 b.toNat ++ byte_bits bytes := List.flatMap_cons

theorem scan_bits_of {bytes bytes' : List UInt8} {b : UInt8}
    (h : unstuff bytes = b :: unstuff bytes') :
    scan_bits bytes = bits 8 b.toNat ++ₛ scan_bits bytes' := by
  rw [scan_bits, h, byte_bits_cons, Stream'.append_append_stream]
  rfl

/-- Behind the last byte there are bytes 0xFF. -/
theorem scan_bits_nil : scan_bits [] = bits 8 255 ++ₛ scan_bits [] := by
  have hones : bits 8 255 = List.replicate 8 true := by decide
  rw [hones]
  exact (replicate_append_const 8 true).symm

theorem unstuff_cons {b : UInt8} (hb : b ≠ 0xFF) (bytes : List UInt8) :
    unstuff (b :: bytes) = b :: unstuff bytes := by
  cases bytes with
  | nil => rfl
  | cons marker bytes => rw [unstuff, if_neg hb]

theorem unstuff_stuffed (marker : UInt8) (bytes : List UInt8) :
    unstuff (0xFF :: marker :: bytes) = 0xFF :: unstuff bytes := by
  rw [unstuff, if_pos rfl]

/-- The bytes from a place on. -/
theorem take_drop_cons {b : UInt8} {pos n : ℕ} (h : raw[pos]? = some b) :
    (raw.drop pos).take (n + 1) = b :: (raw.drop (pos + 1)).take n := by
  obtain ⟨hlt, rfl⟩ := List.getElem?_eq_some_iff.mp h
  rw [List.drop_eq_getElem_cons hlt, List.take_succ_cons]

/-- **A turn of the loop takes no bit away.** -/
theorem load_byte_reads (h : (ctx.pos : ℤ) + ctx.size ≤ raw.length) (hroom : ctx.bufbits ≤ 15) :
    ∃ ctx', load_byte raw ctx = some ctx' ∧ Reads raw (ctx.rest raw) ctx'
      ∧ ctx'.bufbits = ctx.bufbits + 8 := by
  -- a byte behind the buffer, and the stream of the bytes left
  have hmove : ∀ (b : UInt8) (pos : ℕ) (size : ℤ),
      scan_bits ((raw.drop ctx.pos).take ctx.size.toNat)
        = bits 8 b.toNat ++ₛ scan_bits ((raw.drop pos).take size.toNat) →
      (pos : ℤ) + size ≤ raw.length →
      Reads raw (ctx.rest raw)
        ⟨pos, size, (ctx.buf <<< 8) ||| b.toBitVec.setWidth 32, ctx.bufbits + 8⟩ := by
    intro b pos size hscan hin
    have hb : (b.toBitVec.setWidth 32).toNat = b.toNat := by
      rw [BitVec.toNat_setWidth]
      exact Nat.mod_eq_of_lt (b.toNat_lt.trans (by decide))
    refine ⟨hin, by dsimp only; omega, ?_⟩
    unfold nj_bits_t.rest nj_bits_t.pending
    dsimp only
    rw [bits_shift (by omega) _ (hb ▸ b.toNat_lt), hb, Stream'.append_append_stream, ← hscan]
  unfold load_byte
  by_cases hend : ctx.size ≤ 0
  · rw [if_pos hend]
    refine ⟨_, rfl, hmove 0xFF ctx.pos ctx.size ?_ h, rfl⟩
    rw [show ctx.size.toNat = 0 by omega, List.take_zero]
    exact scan_bits_nil
  · rw [if_neg hend]
    obtain ⟨n, hn⟩ : ∃ n : ℕ, ctx.size = n + 1 := ⟨ctx.size.toNat - 1, by omega⟩
    obtain ⟨b, hb⟩ : ∃ b, raw[ctx.pos]? = some b :=
      ⟨_, List.getElem?_eq_getElem (show ctx.pos < raw.length by omega)⟩
    have hbytes : (raw.drop ctx.pos).take ctx.size.toNat
        = b :: (raw.drop (ctx.pos + 1)).take n := by
      rw [show ctx.size.toNat = n + 1 by omega, take_drop_cons hb]
    rw [hb, Option.bind_some, hn, add_sub_cancel_right]
    dsimp only
    by_cases hstuffed : b = 0xFF ∧ (0 : ℤ) < n
    · rw [if_pos hstuffed]
      obtain ⟨rfl, hpos⟩ := hstuffed
      obtain ⟨m, rfl⟩ : ∃ m : ℕ, n = m + 1 := ⟨n - 1, by omega⟩
      obtain ⟨marker, hmarker⟩ : ∃ b, raw[ctx.pos + 1]? = some b :=
        ⟨_, List.getElem?_eq_getElem (show ctx.pos + 1 < raw.length by omega)⟩
      rw [hmarker, Option.map_some]
      refine ⟨_, rfl, hmove 0xFF _ _ ?_ (by omega), rfl⟩
      rw [hbytes, take_drop_cons hmarker, show (((m + 1 : ℕ) : ℤ) - 1).toNat = m by omega]
      exact scan_bits_of (unstuff_stuffed _ _)
    · rw [if_neg hstuffed]
      refine ⟨_, rfl, hmove b _ _ ?_ (by omega), rfl⟩
      rw [hbytes]
      apply scan_bits_of
      by_cases hff : b = 0xFF
      · obtain rfl : n = 0 := by
          by_contra hne
          exact hstuffed ⟨hff, by omega⟩
        rfl
      · exact unstuff_cons hff _

/-! ## Windows -/

/-- `n` bits of an `int` above `m` others; the shift may put copies of the sign above them. -/
theorem shiftRight_and_mask (buf : BitVec 32) {m n : ℕ} (h : m + n ≤ 32) (hn : n < 32) :
    (buf.sshiftRight m &&& ((1#32 <<< n) - 1#32)).toNat = buf.toNat / 2 ^ m % 2 ^ n := by
  have hpow : 2 ^ n < 2 ^ 32 := Nat.pow_lt_pow_right (by norm_num) hn
  have hmask : ((1#32 <<< n) - 1#32).toNat = 2 ^ n - 1 := by
    have hpos : 0 < 2 ^ n := Nat.two_pow_pos n
    have hshift : (1#32 <<< n).toNat = 2 ^ n := by
      rw [BitVec.toNat_shiftLeft, Nat.shiftLeft_eq, BitVec.toNat_ofNat, Nat.one_mod, one_mul,
        Nat.mod_eq_of_lt hpow]
    rw [BitVec.toNat_sub, hshift, BitVec.toNat_ofNat]
    omega
  rw [BitVec.toNat_and, hmask, Nat.and_two_pow_sub_one_eq_mod]
  apply Nat.eq_of_testBit_eq
  intro i
  rw [Nat.testBit_mod_two_pow, Nat.testBit_mod_two_pow, Nat.testBit_div_two_pow]
  by_cases hi : i < n
  · have hbit := BitVec.getLsbD_sshiftRight buf m i
    rw [BitVec.getLsbD, BitVec.getLsbD] at hbit
    rw [hbit, decide_eq_false (show ¬32 ≤ i by omega), if_pos (show m + i < 32 by omega),
      Nat.add_comm m i]
    simp
  · rw [decide_eq_false hi, Bool.false_and, Bool.false_and]

/-- A window into a word that is long enough. -/
theorem window_into {n k : ℕ} (h : n ≤ k) (v : ℕ) (s : Stream' Bool) :
    window (bits k v ++ₛ s) n = v / 2 ^ (k - n) % 2 ^ n := by
  obtain ⟨m, rfl⟩ := Nat.exists_eq_add_of_le h
  have hw := window_append (bits n (v / 2 ^ m)) (bits m v ++ₛ s)
  rw [bits_length, value_bits] at hw
  rw [bits_split, Stream'.append_append_stream, Nat.add_sub_cancel_left, hw]

/-- **Looking at bits.** The buffer is filled as far as it has to be, and what is shown is the next
window of the stream. -/
theorem njShowBits_reads {n : ℕ} (hn : n ≤ 16) (h : Reads raw s ctx) :
    ∃ ctx', njShowBits raw ctx n = some (window s n, ctx') ∧ Reads raw s ctx'
      ∧ n ≤ ctx'.bufbits := by
  by_cases hzero : n = 0
  · subst hzero
    exact ⟨ctx, rfl, h, Nat.zero_le _⟩
  · have hpos : ∀ t : nj_bits_t, Reads raw s t → decide (t.bufbits < n) = true →
        0 < n - t.bufbits := fun t _ ht => Nat.sub_pos_of_lt (of_decide_eq_true ht)
    have hturn : ∀ t : nj_bits_t, Reads raw s t → decide (t.bufbits < n) = true →
        Returns (load_byte raw t) True fun t' =>
          (Reads raw s t' ∧ n - t'.bufbits < n - t.bufbits) ∧ (True ↔ True) := by
      intro t ht hc
      have hless : t.bufbits < n := of_decide_eq_true hc
      obtain ⟨t', hload, hreads, hbits⟩ :=
        load_byte_reads ht.inside (show t.bufbits ≤ 15 by omega)
      rw [ht.rest] at hreads
      exact returns_of_exists ⟨t', hload, ⟨hreads, by omega⟩, Iff.rfl⟩
    have hfill := WhileLoop.returns_run hpos (fun _ _ => trivial) (fun _ _ _ _ => trivial) hturn h
      (Nat.sub_le n ctx.bufbits)
    obtain ⟨ctx', hrun⟩ := hfill.1 trivial
    obtain ⟨-, hreads, hfull⟩ := hfill.2 ctx' hrun
    have hle : n ≤ ctx'.bufbits := Nat.le_of_not_lt (of_decide_eq_false hfull)
    refine ⟨ctx', ?_, hreads, hle⟩
    have hroom := hreads.room
    unfold njShowBits
    rw [if_neg hzero, hrun, Option.map_some, shiftRight_and_mask _ (by omega) (by omega),
      ← hreads.rest]
    unfold nj_bits_t.rest nj_bits_t.pending
    rw [window_into hle]

/-- **Passing over bits.** -/
theorem njSkipBits_reads {n : ℕ} (hn : n ≤ 16) (h : Reads raw s ctx) :
    ∃ ctx', njSkipBits raw ctx n = some ctx' ∧ Reads raw (s.drop n) ctx' := by
  -- the buffer holds the bits that are passed over
  have hdrop : ∀ ctx : nj_bits_t, Reads raw s ctx → n ≤ ctx.bufbits →
      Reads raw (s.drop n) { ctx with bufbits := ctx.bufbits - n } := by
    rintro ⟨pos, size, buf, bufbits⟩ hctx hle
    refine ⟨hctx.inside, (Nat.sub_le _ _).trans hctx.room, ?_⟩
    obtain ⟨m, rfl⟩ := Nat.exists_eq_add_of_le hle
    rw [← hctx.rest]
    unfold nj_bits_t.rest nj_bits_t.pending
    dsimp only
    rw [bits_split, Stream'.append_append_stream, drop_bits, Nat.add_sub_cancel_left]
  unfold njSkipBits
  by_cases hless : ctx.bufbits < n
  · obtain ⟨ctx', hshow, hreads, hle⟩ := njShowBits_reads hn h
    rw [if_pos hless, hshow]
    exact ⟨_, rfl, hdrop ctx' hreads hle⟩
  · rw [if_neg hless]
    exact ⟨_, rfl, hdrop ctx h (Nat.le_of_not_lt hless)⟩

theorem njGetBits_reads {n : ℕ} (hn : n ≤ 16) (h : Reads raw s ctx) :
    ∃ ctx', njGetBits raw ctx n = some (window s n, ctx') ∧ Reads raw (s.drop n) ctx' := by
  obtain ⟨ctx₁, hshow, h₁, -⟩ := njShowBits_reads hn h
  obtain ⟨ctx₂, hskip, h₂⟩ := njSkipBits_reads hn h₁
  refine ⟨ctx₂, ?_, h₂⟩
  rw [njGetBits, hshow, Option.bind_some]
  dsimp only
  rw [hskip, Option.map_some]

end SysInC.Jpeg
