/-
A list in chunks of `n`, as a loop with step `n` sees it: the last chunk may be short.
-/
import Mathlib.Data.List.Basic
import Mathlib.Algebra.Order.Ring.Nat
import Mathlib.Tactic.Common

set_option autoImplicit false

namespace SysInC

variable {α β : Type*} {n m : ℕ}

/-- What the turns of `for (i = 0; i < length; i += n)` have before them. -/
def chunks (n : ℕ) (l : List α) : List (List α) :=
  (List.range ((l.length + n - 1) / n)).map fun i => (l.drop (i * n)).take n

@[simp] theorem chunks_nil (hn : 0 < n) : chunks n ([] : List α) = [] := by
  rw [chunks, List.length_nil, Nat.zero_add, Nat.div_eq_of_lt (Nat.sub_lt hn Nat.one_pos)]
  rfl

theorem chunks_of_ne_nil (hn : 0 < n) {l : List α} (h : l ≠ []) :
    chunks n l = l.take n :: chunks n (l.drop n) := by
  have hpos : 0 < l.length := List.length_pos_iff.mpr h
  have hcount : (l.length + n - 1) / n = ((l.drop n).length + n - 1) / n + 1 := by
    rw [List.length_drop, ← Nat.add_div_right _ hn]
    rcases Nat.lt_or_ge l.length n with hshort | hlong
    · -- one turn
      rw [Nat.sub_eq_zero_of_le hshort.le]
      rw [Nat.div_eq_of_lt_le (k := 1) (by omega) (by omega),
        Nat.div_eq_of_lt_le (k := 1) (by omega) (by omega)]
    · rw [show l.length - n + n - 1 + n = l.length + n - 1 by omega]
  rw [chunks, hcount, List.range_succ_eq_map, List.map_cons, List.map_map, Nat.zero_mul,
    List.drop_zero, chunks]
  congr 1
  apply List.map_congr_left
  intro i _
  rw [Function.comp_apply, List.drop_drop, Nat.succ_mul, Nat.add_comm]

/-- One turn of the loop and the others. -/
theorem chunks_induction (hn : 0 < n) {motive : List α → Prop} (nil : motive [])
    (step : ∀ l, l ≠ [] → motive (l.drop n) → motive l) (l : List α) : motive l := by
  induction hlen : l.length using Nat.strongRecOn generalizing l with
  | _ k ih =>
      by_cases h : l = []
      · rw [h]
        exact nil
      · have hpos : 0 < l.length := List.length_pos_iff.mpr h
        refine step l h (ih (l.drop n).length ?_ (l.drop n) rfl)
        rw [List.length_drop, ← hlen]
        omega

theorem length_le_of_mem_chunks {l c : List α} (h : c ∈ chunks n l) : c.length ≤ n := by
  obtain ⟨i, -, rfl⟩ := List.mem_map.mp h
  exact List.length_take_le _ _

theorem flatten_chunks (hn : 0 < n) (l : List α) : (chunks n l).flatten = l := by
  induction l using chunks_induction hn with
  | nil => rw [chunks_nil hn, List.flatten_nil]
  | step l h ih => rw [chunks_of_ne_nil hn h, List.flatten_cons, ih, List.take_append_drop]

/-- Whole chunks in a row are the chunks of the row. -/
theorem chunks_flatten (hn : 0 < n) {ls : List (List α)} (h : ∀ c ∈ ls, c.length = n) :
    chunks n ls.flatten = ls := by
  induction ls with
  | nil => exact chunks_nil hn
  | cons c ls ih =>
      rw [List.forall_mem_cons] at h
      have hne : (c :: ls).flatten ≠ [] := by
        rw [List.flatten_cons, Ne, List.append_eq_nil_iff, ← List.length_eq_zero_iff, h.1]
        omega
      rw [chunks_of_ne_nil hn hne, List.flatten_cons, List.take_left' h.1, List.drop_left' h.1,
        ih h.2]

theorem length_of_mem_chunks (hn : 0 < n) {l : List α} (h : l.length % n = 0) :
    ∀ c ∈ chunks n l, c.length = n := by
  induction l using chunks_induction hn with
  | nil =>
      rw [chunks_nil hn]
      exact fun c hc => absurd hc List.not_mem_nil
  | step l hne ih =>
      have hpos : 0 < l.length := List.length_pos_iff.mpr hne
      have hle : n ≤ l.length := Nat.le_of_dvd hpos (Nat.dvd_of_mod_eq_zero h)
      rw [chunks_of_ne_nil hn hne, List.forall_mem_cons]
      refine ⟨List.length_take_of_le hle, ih ?_⟩
      rw [List.length_drop, ← Nat.mod_eq_sub_mod hle, h]

theorem length_chunks (n : ℕ) (l : List α) : (chunks n l).length = (l.length + n - 1) / n := by
  rw [chunks, List.length_map, List.length_range]

/-- The last turn, behind whole chunks. -/
theorem exists_last_chunk (hn : 0 < n) {l : List α} (h : l ≠ []) :
    ∃ front last, l = front ++ last ∧ front.length % n = 0 ∧ 0 < last.length ∧ last.length ≤ n
      ∧ chunks n l = chunks n front ++ [last] := by
  induction l using chunks_induction hn with
  | nil => exact absurd rfl h
  | step l h ih =>
      rw [chunks_of_ne_nil hn h]
      by_cases hrest : l.drop n = []
      · have hlen : l.length ≤ n := List.drop_eq_nil_iff.mp hrest
        refine ⟨[], l, rfl, Nat.zero_mod n, List.length_pos_iff.mpr h, hlen, ?_⟩
        rw [hrest, chunks_nil hn, List.take_of_length_le hlen]
        rfl
      · obtain ⟨front, last, hl, hwhole, hpos, hle, hchunks⟩ := ih hrest
        have hfull : (l.take n).length = n := by
          rw [List.length_take_of_le]
          rw [List.drop_eq_nil_iff] at hrest
          omega
        have hne : l.take n ++ front ≠ [] := by
          rw [Ne, List.append_eq_nil_iff, ← List.length_eq_zero_iff, hfull]
          omega
        refine ⟨l.take n ++ front, last, ?_, ?_, hpos, hle, ?_⟩
        · rw [List.append_assoc, ← hl, List.take_append_drop]
        · rw [List.length_append, hfull, Nat.add_mod_left, hwhole]
        · rw [hchunks, chunks_of_ne_nil hn hne, List.take_left' hfull, List.drop_left' hfull,
            List.cons_append]

theorem length_flatMap_of_forall {f : α → List β} {ls : List α} (h : ∀ c ∈ ls, (f c).length = m) :
    (ls.flatMap f).length = m * ls.length := by
  induction ls with
  | nil => rfl
  | cons c ls ih =>
      rw [List.forall_mem_cons] at h
      rw [List.flatMap_cons, List.length_append, h.1, ih h.2, List.length_cons, Nat.mul_succ,
        Nat.add_comm]

/-- With every chunk filled up to its length, the list has what was filled in behind it. -/
theorem flatMap_chunks_filled (hn : 0 < n) (x : α) (l : List α) :
    ∃ k, (chunks n l).flatMap (fun c => c ++ List.replicate (n - c.length) x)
      = l ++ List.replicate k x := by
  induction l using chunks_induction hn with
  | nil => exact ⟨0, by rw [chunks_nil hn]; rfl⟩
  | step l hne ih =>
      obtain ⟨k, hk⟩ := ih
      rw [chunks_of_ne_nil hn hne, List.flatMap_cons, hk, List.length_take]
      rcases Nat.lt_or_ge l.length n with hshort | hlong
      · -- the last chunk
        refine ⟨n - l.length + k, ?_⟩
        rw [List.take_of_length_le hshort.le, List.drop_of_length_le hshort.le,
          Nat.min_eq_right hshort.le, List.nil_append, List.append_assoc,
          List.replicate_append_replicate]
      · refine ⟨k, ?_⟩
        rw [Nat.min_eq_left hlong, Nat.sub_self, List.replicate_zero, List.append_nil,
          ← List.append_assoc, List.take_append_drop]

end SysInC
