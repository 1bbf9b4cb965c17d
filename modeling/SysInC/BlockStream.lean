/-
A stream that is taken in blocks of `n`: what does not fill a block waits in a buffer.

However the stream was cut, the state is that of its whole blocks, and the buffer holds the rest
(`Buffered`). With the rest filled up to whole blocks, the state is that of all blocks
(`Buffered.foldl_blocks`).
-/
import SysInC.Chunks

set_option autoImplicit false

namespace SysInC.BlockStream

variable {α σ : Type*} {n : ℕ} {f : σ → List α → σ} {start : σ}

/-- One more symbol: a block that is full is taken at once. -/
def feed (n : ℕ) (f : σ → List α → σ) (s : σ × List α) (a : α) : σ × List α :=
  if (s.2 ++ [a]).length = n then (f s.1 (s.2 ++ [a]), []) else (s.1, s.2 ++ [a])

/-- The state has taken the whole blocks of the stream from `start` on; the rest of it waits. -/
structure Buffered (n : ℕ) (f : σ → List α → σ) (start : σ) (stream : List α)
    (s : σ × List α) : Prop where
  short : s.2.length < n
  whole : ∃ blocks : List (List α), stream = blocks.flatten ++ s.2 ∧ (∀ b ∈ blocks, b.length = n)
    ∧ s.1 = blocks.foldl f start

theorem buffered_nil (hn : 0 < n) : Buffered n f start [] (start, []) :=
  ⟨hn, [], rfl, fun _ hb => absurd hb List.not_mem_nil, rfl⟩

theorem Buffered.feed {stream : List α} {s : σ × List α} (h : Buffered n f start stream s) (a : α) :
    Buffered n f start (stream ++ [a]) (feed n f s a) := by
  obtain ⟨hshort, blocks, hstream, hlen, hstate⟩ := h
  rw [BlockStream.feed]
  split
  · next hfull =>
    refine ⟨by rw [List.length_nil]; omega, blocks ++ [s.2 ++ [a]], ?_, ?_, ?_⟩
    · rw [hstream, List.flatten_concat, List.append_nil, List.append_assoc]
    · rw [List.forall_mem_append, List.forall_mem_singleton]
      exact ⟨hlen, hfull⟩
    · rw [List.foldl_concat, hstate]
  · next hfull =>
    rw [List.length_append, List.length_singleton] at hfull
    refine ⟨?_, blocks, ?_, hlen, hstate⟩
    · rw [List.length_append, List.length_singleton]
      omega
    · rw [hstream, List.append_assoc]

/-- A piece of any length. -/
theorem Buffered.foldl {stream : List α} {s : σ × List α} (h : Buffered n f start stream s)
    (piece : List α) :
    Buffered n f start (stream ++ piece) (piece.foldl (BlockStream.feed n f) s) := by
  induction piece generalizing stream s with
  | nil => rwa [List.append_nil]
  | cons a piece ih =>
      rw [List.append_cons]
      exact ih (h.feed a)

/-- What waits, filled up to whole blocks, goes behind the blocks that were taken. -/
theorem Buffered.foldl_blocks {stream : List α} {s : σ × List α}
    (h : Buffered n f start stream s) {filling : List α} {last : List (List α)}
    (hlast : s.2 ++ filling = last.flatten) (hlen : ∀ b ∈ last, b.length = n) :
    (chunks n (stream ++ filling)).foldl f start = last.foldl f s.1 := by
  obtain ⟨hshort, blocks, hstream, hwhole, hstate⟩ := h
  have hpos : 0 < n := Nat.lt_of_le_of_lt (Nat.zero_le _) hshort
  have hall : ∀ b ∈ blocks ++ last, b.length = n := List.forall_mem_append.mpr ⟨hwhole, hlen⟩
  rw [hstream, List.append_assoc, hlast, ← List.flatten_append, chunks_flatten hpos hall,
    List.foldl_append, hstate]

end SysInC.BlockStream
