/-
The **sequence view of byte-aligned LZ77**, over an arbitrary symbol type.

A byte-aligned LZ stream is a list of sequences, each a run of literals followed
by one back reference. What a decoder computes is a fold of these sequences over
the output produced so far, and what an encoder owes is that the fold rebuilds
its input. Both halves are stated here without any byte format, so that a codec
only has to show how it writes one sequence and how it reads one back.

The one lemma with content is `copy_back_take`: a back reference whose symbols
have actually been compared extends a prefix of the input to a longer prefix,
whether or not the reference overlaps its own output.
-/
import Mathlib.Data.List.GetD
import Mathlib.Data.List.TakeDrop
import Mathlib.Tactic.Ring

set_option autoImplicit false

namespace SysInC.Lz77

variable {α : Type*}

/-! ## The back reference -/

/-- Append `n` symbols, each read `d` places behind the current end. The read
happens after the previous append, which is what makes an overlapping
reference repeat itself. `z` is the symbol of a read outside the output. -/
def copy_back (z : α) (d : ℕ) : ℕ → List α → List α
  | 0, out => out
  | n + 1, out => copy_back z d n (out ++ [out.getD (out.length - d) z])

@[simp] theorem copy_back_length (z : α) (d n : ℕ) (out : List α) :
    (copy_back z d n out).length = out.length + n := by
  induction n generalizing out with
  | zero => simp [copy_back]
  | succ n ih =>
      rw [copy_back, ih, List.length_append, List.length_singleton]
      ring

/-- One more symbol of a prefix. -/
theorem take_succ_getD (src : List α) (z : α) {k : ℕ} (hk : k < src.length) :
    src.take (k + 1) = src.take k ++ [src.getD k z] := by
  rw [List.take_add_one, List.getElem?_eq_getElem hk, List.getD_eq_getElem _ _ hk]
  rfl

/-- A back reference whose symbols agree with the ones ahead extends a prefix of
`src` by its whole length. The hypothesis is the postcondition of a match-length
loop; nothing forbids `d < n`. -/
theorem copy_back_take (src : List α) (z : α) (d n pos : ℕ) (hd : 1 ≤ d) (hdp : d ≤ pos)
    (hn : pos + n ≤ src.length)
    (hm : ∀ k, k < n → src.getD (pos - d + k) z = src.getD (pos + k) z) :
    copy_back z d n (src.take pos) = src.take (pos + n) := by
  induction n generalizing pos with
  | zero => simp [copy_back]
  | succ n ih =>
      have hlen : (src.take pos).length = pos := by
        rw [List.length_take]
        omega
      have hread : (src.take pos).getD (pos - d) z = src.getD pos z := by
        rw [List.getD_eq_getElem _ _ (by omega), List.getElem_take,
          ← List.getD_eq_getElem src z (by omega)]
        simpa using hm 0 (by omega)
      rw [copy_back, hlen, hread, ← take_succ_getD src z (by omega)]
      rw [ih (pos + 1) (by omega) (by omega) ?_]
      · congr 1
        ring
      · intro k hk
        have h := hm (k + 1) (by omega)
        rw [show pos + 1 - d + k = pos - d + (k + 1) by omega,
          show pos + 1 + k = pos + (k + 1) by omega]
        exact h

/-! ## Sequences -/

/-- Literals to append, then a back reference of `len` symbols from `dist`
places behind. -/
structure Sequence (α : Type*) where
  lits : List α
  dist : ℕ
  len : ℕ

/-- The number of symbols a sequence produces. -/
def Sequence.size (s : Sequence α) : ℕ := s.lits.length + s.len

/-- What a decoder does with one sequence. -/
def Sequence.apply (z : α) (s : Sequence α) (out : List α) : List α :=
  copy_back z s.dist s.len (out ++ s.lits)

/-- The reference of `s` stays inside the output, when `n` symbols precede it. -/
def Sequence.InRange (s : Sequence α) (n : ℕ) : Prop :=
  1 ≤ s.dist ∧ s.dist ≤ n + s.lits.length

@[simp] theorem Sequence.apply_length (z : α) (s : Sequence α) (out : List α) :
    (s.apply z out).length = out.length + s.size := by
  rw [Sequence.apply, copy_back_length, List.length_append, Sequence.size]
  ring

/-- The decoder's fold. -/
def expand (z : α) : List (Sequence α) → List α → List α
  | [], out => out
  | s :: ss, out => expand z ss (s.apply z out)

/-- Every reference of the list stays inside the output that the sequences
before it have produced. -/
def AllInRange : List (Sequence α) → ℕ → Prop
  | [], _ => True
  | s :: ss, n => s.InRange n ∧ AllInRange ss (n + s.size)

theorem expand_append (z : α) (ss ts : List (Sequence α)) (out : List α) :
    expand z (ss ++ ts) out = expand z ts (expand z ss out) := by
  induction ss generalizing out with
  | nil => rfl
  | cons s ss ih => rw [List.cons_append, expand, ih, expand]

theorem expand_length (z : α) (ss : List (Sequence α)) (out : List α) :
    (expand z ss out).length = out.length + (ss.map Sequence.size).sum := by
  induction ss generalizing out with
  | nil => simp [expand]
  | cons s ss ih =>
      rw [expand, ih, Sequence.apply_length, List.map_cons, List.sum_cons]
      ring

theorem all_in_range_append (ss ts : List (Sequence α)) (n : ℕ) :
    AllInRange (ss ++ ts) n
      ↔ AllInRange ss n ∧ AllInRange ts (n + (ss.map Sequence.size).sum) := by
  induction ss generalizing n with
  | nil => simp [AllInRange]
  | cons s ss ih =>
      simp only [List.cons_append, AllInRange, ih, List.map_cons, List.sum_cons, and_assoc,
        Nat.add_assoc]

/-- A sequence whose literals are the next symbols of `src` and whose reference
has been compared carries a decoded prefix of `src` to a longer one. -/
theorem apply_take (src : List α) (z : α) (anchor pos d n : ℕ) (ha : anchor ≤ pos)
    (hd : 1 ≤ d) (hdp : d ≤ pos) (hn : pos + n ≤ src.length)
    (hm : ∀ k, k < n → src.getD (pos - d + k) z = src.getD (pos + k) z) :
    Sequence.apply z ⟨(src.drop anchor).take (pos - anchor), d, n⟩ (src.take anchor)
      = src.take (pos + n) := by
  have hcat : src.take anchor ++ (src.drop anchor).take (pos - anchor) = src.take pos := by
    rw [← List.take_add, Nat.add_sub_cancel' ha]
  rw [Sequence.apply, hcat]
  exact copy_back_take src z d n pos hd hdp hn hm

end SysInC.Lz77
