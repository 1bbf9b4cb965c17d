/-
`secure_shred_file` of `low-utils/rmd.c`: what of the file is overwritten when it reports success.

A pass and an encryption sweep go through the file in chunks and count down by what they asked to be
written. The offset of the descriptor moves by what was written. So a pass covers what its counts add
up to, from the beginning of the file on, and nobody adds them up.
-/
import Mathlib.Algebra.BigOperators.Intervals
import Mathlib.Algebra.Order.BigOperators.Group.Finset
import Mathlib.Tactic.Common

set_option autoImplicit false

namespace SysInC.Rmd

def ALIGN_SIZE : ℕ := 4096

def CHUNK_SIZE : ℕ := 65536

/-! ## The loops -/

/-- The offset of a descriptor, and the writes through it: where, and how many bytes. -/
structure descriptor where
  offset : ℕ
  log : List (ℕ × ℕ)

/-- A `write` that stores `n` bytes. -/
def descriptor.write (d : descriptor) (n : ℕ) : descriptor :=
  ⟨d.offset + n, d.log ++ [(d.offset, n)]⟩

/-- `is_direct ? ((n + ALIGN_SIZE - 1) & ~(ALIGN_SIZE - 1)) : n` -/
def write_sz (is_direct : Bool) (n : ℕ) : ℕ :=
  if is_direct then (n + ALIGN_SIZE - 1) / ALIGN_SIZE * ALIGN_SIZE else n

/-- `while (remaining > 0)`, from turn `k` on. What a turn writes for a chunk is `turn`; `none` is a
`break`. -/
def chunk_loop (turn : ℕ → ℕ → Option ℕ) : ℕ → ℕ → ℕ → descriptor → descriptor
  | 0, _, _, d => d
  | fuel + 1, k, remaining, d =>
    if 0 < remaining then
      let chunk := min remaining CHUNK_SIZE
      match turn k chunk with
      | some n => chunk_loop turn fuel (k + 1) (remaining - chunk) (d.write n)
      | none => d
    else d

/-- The log of a loop over a file of `size` bytes, behind `lseek(fd, 0, SEEK_SET)`. -/
def sweep (turn : ℕ → ℕ → Option ℕ) (size : ℕ) : List (ℕ × ℕ) :=
  (chunk_loop turn size 0 size ⟨0, []⟩).log

/-- The turn of an overwriting pass: `if (w < 0) break;`. `io` is what its `write`s return. -/
def wipe_turn (is_direct : Bool) (io : ℕ → Option ℕ) (k to_write : ℕ) : Option ℕ :=
  (io k).map fun w => min w (write_sz is_direct to_write)

/-- The turn of an encryption sweep: `if (n <= 0) break;`, and the `write` is not looked at. The
cipher runs in the buffer. `io` is what its `read`s and `write`s return. -/
def crypt_turn (is_direct : Bool) (io : ℕ → Option ℕ × Option ℕ) (k to_crypt : ℕ) : Option ℕ :=
  let read_sz := write_sz is_direct to_crypt
  let n := min ((io k).1.getD 0) read_sz
  if n = 0 then none
  else some (min ((io k).2.getD 0) (if is_direct then read_sz else n))

/-! ## The function -/

/-- What `lstat` says there is. -/
inductive node where
  | link
  | regular (size : ℕ)
  | other

/-- Which of its calls succeed, and what its reads and writes return. -/
structure answers where
  unlink_link : Bool
  open_direct : Bool
  open_buffered : Bool
  alloc : Bool
  urandom : Bool
  wipe : ℕ → ℕ → Option ℕ
  aes_keys : Bool
  aes : ℕ → Option ℕ × Option ℕ
  chacha_keys : Bool
  chacha : ℕ → Option ℕ × Option ℕ

/-- What the function returns, whether the file is gone, and what was written in its passes and in its
encryption sweeps. -/
structure shredded where
  ret : ℤ
  unlinked : Bool
  passes : List (List (ℕ × ℕ))
  sweeps : List (List (ℕ × ℕ))

def shredded.failed : shredded := ⟨-1, false, [], []⟩

/-- `for (int p = 1; p <= passes; p++)`; the log of the pass `p + 1` is at `p`. -/
def wipe_passes (a : answers) (passes size : ℕ) : List (List (ℕ × ℕ)) :=
  (List.range passes).map fun p => sweep (wipe_turn a.open_direct (a.wipe p)) size

/-- The sweeps that have random bytes and memory for their keys. -/
def crypt_sweeps (a : answers) (size : ℕ) : List (List (ℕ × ℕ)) :=
  (if a.urandom ∧ a.aes_keys then [sweep (crypt_turn a.open_direct a.aes) size] else [])
    ++ if a.urandom ∧ a.chacha_keys then [sweep (crypt_turn a.open_direct a.chacha) size] else []

/-- `none` is an `lstat` that fails. -/
def secure_shred_file (a : answers) (passes : ℕ) : Option node → shredded
  | none => .failed
  | some .link => if a.unlink_link then ⟨0, true, [], []⟩ else .failed
  | some (.regular size) =>
    if 0 < size then
      if (a.open_direct ∨ a.open_buffered) ∧ a.alloc then
        ⟨0, true, wipe_passes a passes size, crypt_sweeps a size⟩
      else .failed
    else ⟨0, true, [], []⟩
  | some .other => ⟨0, true, [], []⟩

/-! ## What is overwritten -/

/-- A write has stored a byte at `i`. -/
def Covered (log : List (ℕ × ℕ)) (i : ℕ) : Prop := ∃ w ∈ log, w.1 ≤ i ∧ i < w.1 + w.2

variable {turn : ℕ → ℕ → Option ℕ} {d : descriptor} {size k : ℕ}

/-- The writes lie one behind the other, from the beginning of the file up to the offset. -/
def Contiguous (d : descriptor) : Prop := ∀ i, Covered d.log i ↔ i < d.offset

theorem Contiguous.write (h : Contiguous d) (n : ℕ) : Contiguous (d.write n) := by
  intro i
  unfold Covered
  show (∃ w ∈ d.log ++ [(d.offset, n)], _) ↔ i < d.offset + n
  constructor
  · rintro ⟨w, hw, hle, hlt⟩
    rcases List.mem_append.mp hw with hold | hnew
    · have hi := (h i).mp ⟨w, hold, hle, hlt⟩
      omega
    · rw [List.mem_singleton.mp hnew] at hlt
      exact hlt
  · intro hi
    by_cases hbefore : i < d.offset
    · obtain ⟨w, hw, hin⟩ := (h i).mpr hbefore
      exact ⟨w, List.mem_append_left _ hw, hin⟩
    · exact ⟨(d.offset, n), List.mem_append_right _ (List.mem_singleton.mpr rfl),
        Nat.not_lt.mp hbefore, hi⟩

theorem Contiguous.loop (h : Contiguous d) (turn : ℕ → ℕ → Option ℕ) (fuel k remaining : ℕ) :
    Contiguous (chunk_loop turn fuel k remaining d) := by
  induction fuel generalizing k remaining d with
  | zero => exact h
  | succ fuel ih =>
      rw [chunk_loop]
      by_cases hrem : 0 < remaining
      · rw [if_pos hrem]
        dsimp only
        cases turn k (min remaining CHUNK_SIZE) with
        | none => exact h
        | some n => exact ih (h.write n) _ _
      · rw [if_neg hrem]
        exact h

/-! ## The turns of a loop -/

/-- How many chunks the file has. -/
def turns (size : ℕ) : ℕ := (size + CHUNK_SIZE - 1) / CHUNK_SIZE

/-- The chunk of the turn `k`. -/
def chunk_at (size k : ℕ) : ℕ := min (size - k * CHUNK_SIZE) CHUNK_SIZE

/-- What the turn `k` writes; a turn that ends the loop writes nothing. -/
def count (turn : ℕ → ℕ → Option ℕ) (size k : ℕ) : ℕ := (turn k (chunk_at size k)).getD 0

theorem left_iff_turn (size k : ℕ) : 0 < size - k * CHUNK_SIZE ↔ k < turns size := by
  unfold turns CHUNK_SIZE
  omega

theorem left_after (size k : ℕ) :
    size - k * CHUNK_SIZE - chunk_at size k = size - (k + 1) * CHUNK_SIZE := by
  unfold chunk_at CHUNK_SIZE
  omega

/-- The offset moves by the counts of the turns there are, and by all of them if none is the last
one before its time. -/
theorem chunk_loop_offset (turn : ℕ → ℕ → Option ℕ) (d : descriptor) {fuel : ℕ}
    (hfuel : size - k * CHUNK_SIZE ≤ fuel) :
    (chunk_loop turn fuel k (size - k * CHUNK_SIZE) d).offset
        ≤ d.offset + ∑ j ∈ Finset.Ico k (turns size), count turn size j
      ∧ ((∀ j, k ≤ j → j < turns size → turn j (chunk_at size j) ≠ none) →
        (chunk_loop turn fuel k (size - k * CHUNK_SIZE) d).offset
          = d.offset + ∑ j ∈ Finset.Ico k (turns size), count turn size j) := by
  induction fuel generalizing k d with
  | zero =>
      have hturn : turns size ≤ k := by
        by_contra hlt
        have hleft := (left_iff_turn size k).mpr (Nat.lt_of_not_le hlt)
        omega
      rw [chunk_loop, Finset.Ico_eq_empty_of_le hturn, Finset.sum_empty]
      exact ⟨le_rfl, fun _ => rfl⟩
  | succ fuel ih =>
      rw [chunk_loop]
      by_cases hturn : k < turns size
      · have hleft := (left_iff_turn size k).mpr hturn
        have hchunk : 0 < chunk_at size k := by
          unfold chunk_at CHUNK_SIZE at *
          omega
        have hafter := left_after size k
        rw [if_pos hleft, Finset.sum_eq_sum_Ico_succ_bot hturn]
        dsimp only
        rw [← chunk_at, hafter]
        cases hcount : turn k (chunk_at size k) with
        | none =>
            exact ⟨Nat.le_add_right _ _, fun hall => absurd hcount (hall k le_rfl hturn)⟩
        | some n =>
            have hn : count turn size k = n := by rw [count, hcount, Option.getD_some]
            obtain ⟨hle, heq⟩ := ih (k := k + 1) (d.write n) (by omega)
            have hsum : (d.write n).offset + ∑ j ∈ Finset.Ico (k + 1) (turns size), count turn size j
                = d.offset + (count turn size k
                  + ∑ j ∈ Finset.Ico (k + 1) (turns size), count turn size j) := by
              rw [hn, ← Nat.add_assoc]
              rfl
            rw [← hsum]
            exact ⟨hle, fun hall => heq fun j hj hjt => hall j (Nat.le_of_succ_le hj) hjt⟩
      · have hleft : ¬0 < size - k * CHUNK_SIZE := fun h => hturn ((left_iff_turn size k).mp h)
        rw [if_neg hleft, Finset.Ico_eq_empty_of_le (Nat.not_lt.mp hturn), Finset.sum_empty]
        exact ⟨le_rfl, fun _ => rfl⟩

/-! ## What the turns ask for -/

/-- A chunk that is left out is more than the rounding of the last one. -/
theorem write_sz_lt (is_direct : Bool) (size : ℕ) {n : ℕ} (hn : 0 < n) :
    write_sz is_direct size < size + write_sz is_direct n := by
  unfold write_sz ALIGN_SIZE
  split_ifs
  · omega
  · omega

/-- The chunks together. -/
theorem sum_write_sz (is_direct : Bool) (size : ℕ) :
    ∑ j ∈ Finset.range (turns size), write_sz is_direct (chunk_at size j)
      = write_sz is_direct size := by
  have hfrom (n : ℕ) : ∀ k, turns size = k + n →
      ∑ j ∈ Finset.Ico k (turns size), write_sz is_direct (chunk_at size j)
        = write_sz is_direct (size - k * CHUNK_SIZE) := by
    induction n with
    | zero =>
        intro k hk
        have hleft : size - k * CHUNK_SIZE = 0 := by
          have := left_iff_turn size k
          omega
        have hend : turns size ≤ k := hk.le
        rw [Finset.Ico_eq_empty_of_le hend, Finset.sum_empty, hleft]
        unfold write_sz ALIGN_SIZE
        split_ifs
        · rfl
        · rfl
    | succ n ih =>
        intro k hk
        rw [Finset.sum_eq_sum_Ico_succ_bot (by omega), ih (k + 1) (by omega)]
        unfold write_sz chunk_at CHUNK_SIZE ALIGN_SIZE
        split_ifs
        · omega
        · omega
  rw [Finset.range_eq_Ico, hfrom (turns size) 0 (Nat.zero_add _).symm, Nat.zero_mul, Nat.sub_zero]

/-- The loop covers the file exactly when the counts add up to its size. -/
theorem sweep_covers_iff {is_direct : Bool}
    (hle : ∀ k chunk n, turn k chunk = some n → n ≤ write_sz is_direct chunk) (size : ℕ) :
    (∀ i < size, Covered (sweep turn size) i)
      ↔ size ≤ ∑ k ∈ Finset.range (turns size), count turn size k := by
  have hstart : Contiguous ⟨0, []⟩ := fun i => by
    refine iff_of_false ?_ (Nat.not_lt_zero i)
    rintro ⟨w, hw, -⟩
    exact absurd hw List.not_mem_nil
  have hlog := hstart.loop turn size 0 size
  have hcovers : (∀ i < size, Covered (sweep turn size) i)
      ↔ size ≤ (chunk_loop turn size 0 size ⟨0, []⟩).offset := by
    constructor
    · intro h
      by_contra hlt
      exact absurd ((hlog _).mp (h _ (Nat.lt_of_not_le hlt))) (lt_irrefl _)
    · exact fun h i hi => (hlog i).mpr (hi.trans_le h)
  have hloop := chunk_loop_offset turn ⟨0, []⟩ (show size - 0 * CHUNK_SIZE ≤ size by omega)
  rw [Nat.zero_mul, Nat.sub_zero, ← Finset.range_eq_Ico, Nat.zero_add] at hloop
  rw [hcovers]
  refine ⟨fun h => h.trans hloop.1, fun h => ?_⟩
  rw [hloop.2 fun j _ hj hnone => ?_]
  · exact h
  · -- what a turn that ends the loop leaves out is not made up for
    have hcounts (i : ℕ) : count turn size i ≤ write_sz is_direct (chunk_at size i) := by
      unfold count
      cases hturn : turn i (chunk_at size i) with
      | none => exact Nat.zero_le _
      | some n => exact hle i _ n hturn
    have hmem := Finset.mem_range.mpr hj
    have hzero : count turn size j = 0 := by rw [count, hnone, Option.getD_none]
    have hchunk : 0 < chunk_at size j := by
      have hleft := (left_iff_turn size j).mpr hj
      unfold chunk_at CHUNK_SIZE at *
      omega
    have hothers := Finset.sum_le_sum fun i (_ : i ∈ (Finset.range (turns size)).erase j) =>
      hcounts i
    have hsum := Finset.sum_erase_add _ (count turn size) hmem
    have hall := Finset.sum_erase_add _ (fun i => write_sz is_direct (chunk_at size i)) hmem
    rw [sum_write_sz] at hall
    have hshort := write_sz_lt is_direct size hchunk
    omega

theorem wipe_turn_le (is_direct : Bool) (io : ℕ → Option ℕ) (k chunk n : ℕ)
    (h : wipe_turn is_direct io k chunk = some n) : n ≤ write_sz is_direct chunk := by
  obtain ⟨w, -, rfl⟩ := Option.map_eq_some_iff.mp h
  exact Nat.min_le_right _ _

theorem crypt_turn_le (is_direct : Bool) (io : ℕ → Option ℕ × Option ℕ) (k chunk n : ℕ)
    (h : crypt_turn is_direct io k chunk = some n) : n ≤ write_sz is_direct chunk := by
  unfold crypt_turn at h
  dsimp only at h
  split_ifs at h
  · obtain rfl := Option.some.inj h
    exact Nat.min_le_right _ _
  · obtain rfl := Option.some.inj h
    exact (Nat.min_le_right _ _).trans (Nat.min_le_right _ _)

/-! ## When the report is honest -/

/-- The bytes that are to be overwritten. A link and a device have none of their own. -/
def original_size : Option node → ℕ
  | some (.regular size) => size
  | _ => 0

/-- Where the file is gone or success reported, every pass has overwritten the whole file. -/
def shredded.Honest (r : shredded) (st : Option node) (passes : ℕ) : Prop :=
  r.unlinked = true ∨ r.ret = 0 →
    ∀ p < passes, ∀ i < original_size st, Covered (r.passes.getD p []) i

/-- And so has every encryption sweep that was begun. -/
def shredded.SweepsHonest (r : shredded) (st : Option node) : Prop :=
  r.unlinked = true ∨ r.ret = 0 → ∀ log ∈ r.sweeps, ∀ i < original_size st, Covered log i

/-- The file is opened, and there is a buffer. -/
def answers.Ready (a : answers) : Prop :=
  (a.open_direct = true ∨ a.open_buffered = true) ∧ a.alloc = true

/-- The counts of the `write`s of every pass add up to the size of the file. -/
def PassesStored (a : answers) (passes size : ℕ) : Prop :=
  ∀ p < passes,
    size ≤ ∑ k ∈ Finset.range (turns size), count (wipe_turn a.open_direct (a.wipe p)) size k

/-- And so do those of the encryption sweeps. -/
def SweepsStored (a : answers) (size : ℕ) : Prop :=
  (a.urandom = true → a.aes_keys = true →
    size ≤ ∑ k ∈ Finset.range (turns size), count (crypt_turn a.open_direct a.aes) size k)
  ∧ (a.urandom = true → a.chacha_keys = true →
    size ≤ ∑ k ∈ Finset.range (turns size), count (crypt_turn a.open_direct a.chacha) size k)

theorem wipe_passes_iff (a : answers) (passes size : ℕ) :
    (∀ p < passes, ∀ i < size, Covered ((wipe_passes a passes size).getD p []) i)
      ↔ PassesStored a passes size := by
  refine forall₂_congr fun p hp => ?_
  have hpass : (wipe_passes a passes size).getD p []
      = sweep (wipe_turn a.open_direct (a.wipe p)) size := by
    rw [List.getD_eq_getElem?_getD, wipe_passes, List.getElem?_map, List.getElem?_range hp]
    rfl
  rw [hpass]
  exact sweep_covers_iff (wipe_turn_le _ _) size

theorem crypt_sweeps_iff (a : answers) (size : ℕ) :
    (∀ log ∈ crypt_sweeps a size, ∀ i < size, Covered log i) ↔ SweepsStored a size := by
  have hsweep (c : Prop) [Decidable c] (io : ℕ → Option ℕ × Option ℕ) :
      (∀ log ∈ if c then [sweep (crypt_turn a.open_direct io) size] else [],
        ∀ i < size, Covered log i)
      ↔ (c → size ≤ ∑ k ∈ Finset.range (turns size),
        count (crypt_turn a.open_direct io) size k) := by
    by_cases hc : c
    · rw [if_pos hc, List.forall_mem_singleton, sweep_covers_iff (crypt_turn_le _ _)]
      exact ⟨fun h _ => h, fun h => h hc⟩
    · rw [if_neg hc]
      exact iff_of_true (fun log hlog => absurd hlog List.not_mem_nil) fun h => absurd h hc
  unfold crypt_sweeps SweepsStored
  rw [List.forall_mem_append, hsweep, hsweep, and_imp, and_imp]

/-- A failure is not a report. -/
theorem honest_of_failed (st : Option node) (passes : ℕ) :
    shredded.failed.Honest st passes ∧ shredded.failed.SweepsHonest st := by
  have hnot : ¬(shredded.failed.unlinked = true ∨ shredded.failed.ret = 0) := by
    rintro (hgone | hret)
    · exact nomatch hgone
    · exact nomatch hret
  exact ⟨fun h => absurd h hnot, fun h => absurd h hnot⟩

/-- Where there are no bytes there is nothing to overwrite. -/
theorem honest_of_empty (a : answers) (r : shredded) {st : Option node}
    (hst : original_size st = 0) (passes : ℕ) :
    (r.Honest st passes ↔ (a.Ready → PassesStored a passes (original_size st)))
    ∧ (r.SweepsHonest st ↔ (a.Ready → SweepsStored a (original_size st))) := by
  unfold shredded.Honest shredded.SweepsHonest PassesStored SweepsStored
  rw [hst]
  exact ⟨iff_of_true (fun _ _ _ i hi => absurd hi (Nat.not_lt_zero i))
      fun _ _ _ => Nat.zero_le _,
    iff_of_true (fun _ _ _ i hi => absurd hi (Nat.not_lt_zero i))
      fun _ => ⟨fun _ _ => Nat.zero_le _, fun _ _ => Nat.zero_le _⟩⟩

/-- **When the report is honest.** -/
theorem secure_shred_file_iff (a : answers) (passes : ℕ) (st : Option node) :
    ((secure_shred_file a passes st).Honest st passes
      ↔ (a.Ready → PassesStored a passes (original_size st)))
    ∧ ((secure_shred_file a passes st).SweepsHonest st
      ↔ (a.Ready → SweepsStored a (original_size st))) := by
  by_cases hsize : original_size st = 0
  · exact honest_of_empty a _ hsize passes
  · obtain ⟨size, rfl⟩ : ∃ size, st = some (.regular size) := by
      cases st with
      | none => exact absurd rfl hsize
      | some n =>
          cases n with
          | link => exact absurd rfl hsize
          | regular size => exact ⟨size, rfl⟩
          | other => exact absurd rfl hsize
    have hpos : 0 < size := Nat.pos_of_ne_zero hsize
    by_cases hready : a.Ready
    · -- nothing that comes after the opening keeps it from its report
      have hdone : secure_shred_file a passes (some (.regular size))
          = ⟨0, true, wipe_passes a passes size, crypt_sweeps a size⟩ := by
        rw [secure_shred_file, if_pos hpos]
        exact if_pos hready
      rw [hdone]
      constructor
      · exact Iff.trans ⟨fun h => h (Or.inl rfl), fun h _ => h⟩
          ((wipe_passes_iff a passes size).trans ⟨fun h _ => h, fun h => h hready⟩)
      · exact Iff.trans ⟨fun h => h (Or.inl rfl), fun h _ => h⟩
          ((crypt_sweeps_iff a size).trans ⟨fun h _ => h, fun h => h hready⟩)
    · have hfailed : secure_shred_file a passes (some (.regular size)) = .failed := by
        rw [secure_shred_file, if_pos hpos]
        exact if_neg hready
      obtain ⟨hpasses, hsweeps⟩ := honest_of_failed (some (.regular size)) passes
      rw [hfailed]
      exact ⟨iff_of_true hpasses fun h => absurd h hready,
        iff_of_true hsweeps fun h => absurd h hready⟩

/-- A device that takes no write. -/
def dead_disk : answers where
  unlink_link := true
  open_direct := false
  open_buffered := true
  alloc := true
  urandom := false
  wipe := fun _ _ => none
  aes_keys := false
  aes := fun _ => (none, none)
  chacha_keys := false
  chacha := fun _ => (none, none)

/-- One byte, one pass, and the only write fails. -/
theorem dead_disk_reported :
    ¬∀ (a : answers) (passes : ℕ) (st : Option node),
      (secure_shred_file a passes st).Honest st passes := by
  intro h
  have hcovered := h dead_disk 1 (some (.regular 1)) (Or.inr rfl) 0 Nat.one_pos 0 Nat.one_pos
  obtain ⟨w, hw, -⟩ := hcovered
  exact absurd hw List.not_mem_nil

end SysInC.Rmd
