/-
Stream ciphers over bytes: byte `i` of a text is XORed with byte `i` of a stream.

A cipher that goes over its text in pieces is this as long as each piece begins where the one
before it ends (`xor_stream_append`), and then the same pass once more undoes it
(`xor_stream_twice`). A stream is given in blocks; `xor_block` is one of them.
-/
import Mathlib.Data.List.TakeDrop
import Mathlib.Data.Nat.Basic

set_option autoImplicit false

namespace SysInC

/-- The text from byte `pos` on. -/
def xor_stream (stream : ℕ → UInt8) : ℕ → List UInt8 → List UInt8
  | _, [] => []
  | pos, b :: data => (b ^^^ stream pos) :: xor_stream stream (pos + 1) data

variable {stream : ℕ → UInt8}

@[simp] theorem xor_stream_length (pos : ℕ) (data : List UInt8) :
    (xor_stream stream pos data).length = data.length := by
  induction data generalizing pos with
  | nil => rfl
  | cons b data ih => rw [xor_stream, List.length_cons, List.length_cons, ih]

theorem xor_stream_append (pos : ℕ) (a b : List UInt8) :
    xor_stream stream pos (a ++ b)
      = xor_stream stream pos a ++ xor_stream stream (pos + a.length) b := by
  induction a generalizing pos with
  | nil => rfl
  | cons x a ih =>
      rw [List.cons_append, xor_stream, ih, xor_stream, List.cons_append, List.length_cons,
        Nat.add_assoc, Nat.add_comm 1]

theorem xor_stream_take_drop (pos : ℕ) {n : ℕ} {data : List UInt8} (h : n ≤ data.length) :
    xor_stream stream pos data
      = xor_stream stream pos (data.take n) ++ xor_stream stream (pos + n) (data.drop n) := by
  have htake : (data.take n).length = n := List.length_take_of_le h
  calc xor_stream stream pos data
      = xor_stream stream pos (data.take n ++ data.drop n) := by rw [List.take_append_drop]
    _ = _ := by rw [xor_stream_append, htake]

/-- The same pass undoes it. -/
theorem xor_stream_twice (pos : ℕ) (data : List UInt8) :
    xor_stream stream pos (xor_stream stream pos data) = data := by
  induction data generalizing pos with
  | nil => rfl
  | cons b data ih =>
      rw [xor_stream, xor_stream, ih, UInt8.xor_assoc, UInt8.xor_self, UInt8.xor_zero]

/-- A block of the stream, over a text that it covers. -/
theorem xor_block (pos : ℕ) (data block : List UInt8) (hlen : data.length ≤ block.length)
    (h : ∀ i < block.length, block[i]? = some (stream (pos + i))) :
    data.zipWith (· ^^^ ·) block = xor_stream stream pos data := by
  induction data generalizing pos block with
  | nil => rfl
  | cons b data ih =>
      cases block with
      | nil => cases hlen
      | cons k block =>
          have hk : k = stream pos := Option.some_inj.mp (h 0 (Nat.zero_lt_succ _))
          have hrest : ∀ i < block.length, block[i]? = some (stream (pos + 1 + i)) := by
            intro i hi
            have hnext := h (i + 1) (Nat.succ_lt_succ hi)
            rwa [List.getElem?_cons_succ, Nat.add_comm i, ← Nat.add_assoc] at hnext
          rw [List.zipWith_cons_cons, ih (pos + 1) block (Nat.le_of_succ_le_succ hlen) hrest, hk,
            xor_stream]

end SysInC
