/-
A regular file that is written through a buffered stream and cut through its descriptor.

What a stream has been given is on the disk up to the descriptor's offset and waits in the buffer
from there on (`Stream.Holds`); which part waits is up to the library, and a parameter here.
`ftruncate` acts on the part that is on the disk. What waits is written behind it afterwards, so
that a cut is undone unless nothing waits (`close_drained`, `close_waiting`).
-/
import Mathlib.Data.List.Basic
import Mathlib.Order.Nat
import Mathlib.Tactic.Common

set_option autoImplicit false

namespace SysInC.StdioFile

variable {α : Type*} [Zero α]

/-! ## Descriptors -/

/-- `write` at the offset of the descriptor. A file that ends in front of it is filled up. -/
def write_at (disk : List α) (offset : ℕ) (bytes : List α) : List α :=
  if bytes = [] then disk
  else disk.take offset ++ List.replicate (offset - disk.length) 0 ++ bytes
    ++ disk.drop (offset + bytes.length)

def ftruncate (disk : List α) (length : ℕ) : List α :=
  disk.take length ++ List.replicate (length - disk.length) 0

theorem write_at_end (disk bytes : List α) : write_at disk disk.length bytes = disk ++ bytes := by
  rw [write_at]
  split
  · next empty => rw [empty, List.append_nil]
  · rw [List.take_length, Nat.sub_self, List.replicate_zero, List.append_nil,
      List.drop_of_length_le (by omega), List.append_nil]

/-! ## Streams -/

/-- `pending` is in the buffer. -/
structure Stream (α : Type*) where
  disk : List α
  offset : ℕ
  pending : List α

/-- How many bytes the library passes on in a write: what it has passed on before, what waits, and
how much is written. -/
abbrev Buffering := ℕ → ℕ → ℕ → ℕ

/-- `fopen(path, "wb")` -/
def opened : Stream α := ⟨[], 0, []⟩

def Stream.fwrite (out : Buffering) (s : Stream α) (bytes : List α) : Stream α :=
  let all := s.pending ++ bytes
  let passed := all.take (out s.offset s.pending.length bytes.length)
  ⟨write_at s.disk s.offset passed, s.offset + passed.length, all.drop passed.length⟩

def Stream.ftell (s : Stream α) : ℕ := s.offset + s.pending.length

/-- `ftruncate(fileno(fp), length)` -/
def Stream.truncate (s : Stream α) (length : ℕ) : Stream α :=
  { s with disk := ftruncate s.disk length }

/-- The file behind `fclose`. -/
def Stream.fclose (s : Stream α) : List α := write_at s.disk s.offset s.pending

/-- How much has been passed on behind writes of these sizes. -/
def passed (out : Buffering) (offset pending : ℕ) : List ℕ → ℕ
  | [] => offset
  | n :: sizes =>
    let k := min (out offset pending n) (pending + n)
    passed out (offset + k) (pending + n - k) sizes

/-- The stream has been given `all`, of which the front is on the disk. -/
structure Stream.Holds (s : Stream α) (all : List α) (offset : ℕ) : Prop where
  offset_eq : s.offset = offset
  disk_eq : s.disk = all.take offset
  pending_eq : s.pending = all.drop offset
  le : offset ≤ all.length

variable {s : Stream α} {all bytes : List α} {offset n : ℕ} {out : Buffering}

omit [Zero α] in
theorem holds_opened : (opened : Stream α).Holds [] 0 := ⟨rfl, rfl, rfl, le_rfl⟩

omit [Zero α] in
theorem Stream.Holds.ftell (h : s.Holds all offset) : s.ftell = all.length := by
  rw [Stream.ftell, h.offset_eq, h.pending_eq, List.length_drop]
  exact Nat.add_sub_cancel' h.le

theorem Stream.Holds.fwrite (out : Buffering) (h : s.Holds all offset) (bytes : List α) :
    (s.fwrite out bytes).Holds (all ++ bytes) (offset
      + min (out offset (all.length - offset) bytes.length)
        (all.length - offset + bytes.length)) := by
  obtain ⟨hoffset, hdisk, hpending, hle⟩ := h
  have hall : s.pending ++ bytes = (all ++ bytes).drop offset := by
    rw [List.drop_append_of_le_length hle, hpending]
  have hlen : (s.pending ++ bytes).length = all.length - offset + bytes.length := by
    rw [List.length_append, hpending, List.length_drop]
  have hwait : s.pending.length = all.length - offset := by rw [hpending, List.length_drop]
  have hfront : s.disk.length = offset := by rw [hdisk, List.length_take, Nat.min_eq_left hle]
  set k := out offset (all.length - offset) bytes.length with hk
  have htaken : ((s.pending ++ bytes).take k).length
      = min k (all.length - offset + bytes.length) := by
    rw [List.length_take, hlen]
  refine ⟨?_, ?_, ?_, ?_⟩
  · rw [Stream.fwrite, hoffset, hwait, ← hk]
    dsimp only
    rw [htaken]
  · rw [Stream.fwrite, hoffset, hwait, ← hk]
    dsimp only
    have hwrite := write_at_end s.disk ((s.pending ++ bytes).take k)
    rw [hfront] at hwrite
    rw [hwrite, hdisk, hall, List.take_add, List.take_append_of_le_length hle]
    congr 1
    rw [← hlen, hall, ← List.take_take, List.take_length]
  · rw [Stream.fwrite, hoffset, hwait, ← hk]
    dsimp only
    rw [htaken, hall, List.drop_drop]
  · rw [List.length_append]
    omega

/-- A run of writes. -/
theorem Stream.Holds.writes (out : Buffering) (h : s.Holds all offset) (chunks : List (List α)) :
    (chunks.foldl (Stream.fwrite out) s).Holds (all ++ chunks.flatten)
      (passed out offset (all.length - offset) (chunks.map List.length)) := by
  induction chunks generalizing s all offset with
  | nil =>
      rw [List.flatten_nil, List.append_nil]
      exact h
  | cons bytes chunks ih =>
      have hnext := ih (h.fwrite out bytes)
      rw [List.foldl_cons, List.flatten_cons, ← List.append_assoc, List.map_cons, passed]
      rw [List.length_append] at hnext
      convert hnext using 2
      have hle := h.le
      omega

/-! ## A cut -/

/-- Nothing waits: the cut stays. -/
theorem Stream.Holds.close_drained (h : s.Holds all offset) (hn : n ≤ all.length)
    (hdrained : offset = all.length) : (s.truncate n).fclose = all.take n := by
  rw [Stream.truncate, Stream.fclose, h.offset_eq, h.pending_eq, h.disk_eq, hdrained]
  rw [List.drop_length, write_at, if_pos rfl, ftruncate, List.take_length, Nat.sub_eq_zero_of_le hn,
    List.replicate_zero, List.append_nil]

/-- Something waits: it is written where it belongs, and what was cut in front of it is zeros. -/
theorem Stream.Holds.close_waiting (h : s.Holds all offset) (hn : n ≤ all.length)
    (hwaiting : offset < all.length) : (s.truncate n).fclose
      = all.take (min n offset) ++ List.replicate (offset - n) 0 ++ all.drop offset := by
  have hne : all.drop offset ≠ [] := by
    rw [Ne, List.drop_eq_nil_iff]
    omega
  have hlen : (all.take offset).length = offset := by
    rw [List.length_take, Nat.min_eq_left h.le]
  have hbehind : offset + (all.drop offset).length = all.length := by
    rw [List.length_drop]
    exact Nat.add_sub_cancel' h.le
  rw [Stream.truncate, Stream.fclose]
  dsimp only
  rw [h.offset_eq, h.pending_eq, h.disk_eq, write_at, if_neg hne, hbehind, ftruncate, hlen,
    List.take_take]
  by_cases hcut : n ≤ offset
  · have hfront : (all.take (min n offset)).length = n := by
      rw [List.length_take]
      omega
    have htake : (all.take (min n offset)).take offset = all.take (min n offset) :=
      List.take_of_length_le (by omega)
    have hdrop : (all.take (min n offset)).drop all.length = [] :=
      List.drop_of_length_le (by omega)
    rw [Nat.sub_eq_zero_of_le hcut, List.replicate_zero, List.append_nil, hfront, htake, hdrop,
      List.append_nil]
  · have hfront : (all.take (min n offset)).length = offset := by
      rw [List.length_take]
      omega
    set disk := all.take (min n offset) ++ List.replicate (n - offset) (0 : α) with hdisk
    have hdisklen : disk.length = n := by
      rw [hdisk, List.length_append, hfront, List.length_replicate]
      omega
    have htake : disk.take offset = all.take (min n offset) := by
      rw [hdisk, List.take_append_of_le_length hfront.symm.le, List.take_of_length_le hfront.le]
    have hdrop : disk.drop all.length = [] := List.drop_of_length_le (by omega)
    rw [htake, hdisklen, hdrop, List.append_nil]

/-- No cut. -/
theorem Stream.Holds.close (h : s.Holds all offset) : s.fclose = all := by
  have hlen : s.disk.length = offset := by
    rw [h.disk_eq, List.length_take, Nat.min_eq_left h.le]
  have hwrite := write_at_end s.disk s.pending
  rw [hlen] at hwrite
  rw [Stream.fclose, h.offset_eq, hwrite, h.disk_eq, h.pending_eq, List.take_append_drop]

end SysInC.StdioFile
