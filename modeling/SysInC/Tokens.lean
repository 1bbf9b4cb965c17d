/-
`strtok_r`, and lists cut at separators.

The tokens of a text are the pieces between its separators that are not empty. Where one way to
find the separators sees fewer than another, the pieces of the two are the same only when they
see the same ones.
-/
import Mathlib.Data.List.Basic
import Mathlib.Tactic.Common

set_option autoImplicit false

namespace SysInC.Tokens

variable {α β : Type*}

/-! ## Pieces -/

/-- What stands between the separators, where something does. -/
def pieces (p : α → Bool) (l : List α) : List (List α) := (l.splitOnP p).filter (· ≠ [])

@[simp] theorem pieces_nil (p : α → Bool) : pieces p [] = [] := by
  unfold pieces
  rw [List.splitOnP_nil]
  rfl

/-- A list that does not begin with a separator is its first piece and what comes behind it. -/
theorem splitOnP_eq (p : α → Bool) (l : List α) :
    l.splitOnP p = l.takeWhile (! p ·) :: ((l.dropWhile (! p ·)).splitOnP p).tail := by
  induction l with
  | nil => rfl
  | cons a l ih =>
      rw [List.splitOnP_cons_eq_if_modifyHead]
      by_cases ha : p a
      · rw [if_pos ha, List.takeWhile_cons_of_neg (by simpa using ha),
          List.dropWhile_cons_of_neg (by simpa using ha), List.splitOnP_cons_eq_if_modifyHead,
          if_pos ha, List.tail_cons]
      · rw [if_neg ha, List.takeWhile_cons_of_pos (by simpa using ha),
          List.dropWhile_cons_of_pos (by simpa using ha)]
        conv_lhs => rw [ih]
        rw [List.modifyHead_cons]

theorem pieces_cons_of_pos {p : α → Bool} {a : α} (ha : p a) (l : List α) :
    pieces p (a :: l) = pieces p l := by
  unfold pieces
  rw [List.splitOnP_cons_eq_if_modifyHead, if_pos ha, List.filter_cons_of_neg (by simp)]

theorem pieces_dropWhile (p : α → Bool) (l : List α) : pieces p (l.dropWhile p) = pieces p l := by
  induction l with
  | nil => rfl
  | cons a l ih =>
      by_cases ha : p a
      · rw [List.dropWhile_cons_of_pos ha, pieces_cons_of_pos ha, ih]
      · rw [List.dropWhile_cons_of_neg ha]

/-- The first piece, where the list begins with one. -/
theorem pieces_cons_of_neg {p : α → Bool} {a : α} (ha : ¬ p a) (l : List α) :
    pieces p (a :: l) =
      (a :: l).takeWhile (! p ·) :: pieces p ((a :: l).dropWhile (! p ·)).tail := by
  have hfirst : (a :: l).takeWhile (! p ·) ≠ [] := by
    rw [List.takeWhile_cons_of_pos (by simpa using ha)]
    exact List.cons_ne_nil _ _
  unfold pieces
  rw [splitOnP_eq, List.filter_cons_of_pos (by simpa using hfirst)]
  refine congrArg _ ?_
  cases hrest : (a :: l).dropWhile (! p ·) with
  | nil => rfl
  | cons b rest =>
      -- what the first piece ends at is a separator
      have hb : p b := by
        have hhead := List.head?_dropWhile_not (! p ·) (a :: l)
        rw [hrest] at hhead
        simpa using hhead
      rw [List.splitOnP_cons_eq_if_modifyHead, if_pos hb, List.tail_cons, List.tail_cons]

theorem flatten_pieces (p : α → Bool) (l : List α) :
    (pieces p l).flatten = l.filter (! p ·) := by
  unfold pieces
  rw [List.flatten_filter_ne_nil]
  induction l with
  | nil => rfl
  | cons a l ih =>
      rw [List.splitOnP_cons_eq_if_modifyHead]
      by_cases ha : p a
      · rw [if_pos ha, List.flatten_cons, ih, List.filter_cons_of_neg (by simpa using ha)]
        rfl
      · rw [if_neg ha, List.filter_cons_of_pos (by simpa using ha), ← ih]
        obtain ⟨w, ws, hw⟩ := List.exists_cons_of_ne_nil (List.splitOnP_ne_nil p l)
        rw [hw]
        rfl

/-! ## Two ways to find the separators -/

section Marks

variable {f : α → β} {p : β → Bool} {q : α → Bool}

theorem splitOnP_map (f : α → β) (p : β → Bool) (l : List α) :
    (l.map f).splitOnP p = (l.splitOnP (p ∘ f)).map (List.map f) := by
  induction l with
  | nil => rfl
  | cons a l ih =>
      rw [List.map_cons, List.splitOnP_cons_eq_if_modifyHead, List.splitOnP_cons_eq_if_modifyHead,
        ih, Function.comp_apply]
      split
      · rfl
      · obtain ⟨w, ws, hw⟩ := List.exists_cons_of_ne_nil (List.splitOnP_ne_nil (p ∘ f) l)
        rw [hw]
        rfl

theorem splitOnP_congr {p q : α → Bool} {l : List α} (h : ∀ a ∈ l, p a = q a) :
    l.splitOnP p = l.splitOnP q := by
  induction l with
  | nil => rfl
  | cons a l ih =>
      rw [List.splitOnP_cons_eq_if_modifyHead, List.splitOnP_cons_eq_if_modifyHead,
        h a List.mem_cons_self, ih fun b hb => h b (List.mem_cons_of_mem a hb)]

theorem pieces_map (f : α → β) (p : β → Bool) (l : List α) :
    pieces p (l.map f) = (pieces (p ∘ f) l).map (List.map f) := by
  unfold pieces
  rw [splitOnP_map, List.filter_map]
  congr 2
  funext w
  simp

/-- `q` sees no separator that `p` does not see. The pieces are the same when it sees them all,
and only then. -/
theorem pieces_map_iff (hless : ∀ a, q a → p (f a)) (l : List α) :
    pieces p (l.map f) = (pieces q l).map (List.map f) ↔ ∀ a ∈ l, p (f a) → q a := by
  constructor
  · intro heq a ha hsep
    have hlen := congrArg (fun w => w.flatten.length) heq
    have hleft : (pieces p (l.map f)).flatten.length = (l.filter (fun b => ! p (f b))).length := by
      rw [flatten_pieces, List.filter_map, List.length_map]
      rfl
    have hright : ((pieces q l).map (List.map f)).flatten.length = (l.filter (! q ·)).length := by
      rw [← List.map_flatten, flatten_pieces, List.length_map]
    -- `p` leaves out what `q` leaves out and no more
    have hsub : (l.filter (fun b => ! p (f b))).Sublist (l.filter (! q ·)) :=
      List.monotone_filter_right l fun b hb => by
        have hb' := hless b
        revert hb hb'
        cases p (f b) <;> cases q b <;> simp
    have hall := hsub.eq_of_length (hleft.symm.trans (hlen.trans hright))
    by_contra hq
    have hmem : a ∈ l.filter (! q ·) := List.mem_filter.mpr ⟨ha, by simpa using hq⟩
    rw [← hall, List.mem_filter] at hmem
    simp [hsep] at hmem
  · intro hall
    rw [pieces_map]
    refine congrArg _ (congrArg _ (splitOnP_congr fun a ha => ?_))
    exact Bool.eq_iff_iff.mpr ⟨hall a ha, hless a⟩

end Marks

/-! ## The source -/

/-- `strtok_r`: the next token, and what is left behind it. -/
def strtok_r (s delim : List Char) : Option (List Char × List Char) :=
  let s := s.dropWhile (delim.contains ·)
  if s = [] then none
  else some (s.takeWhile (! delim.contains ·), (s.dropWhile (! delim.contains ·)).tail)

theorem pieces_of_strtok_r_none {s delim : List Char} (h : strtok_r s delim = none) :
    pieces (delim.contains ·) s = [] := by
  rw [← pieces_dropWhile]
  by_cases hs : s.dropWhile (delim.contains ·) = []
  · rw [hs, pieces_nil]
  · unfold strtok_r at h
    rw [if_neg hs] at h
    cases h

/-- The token is the next piece, and the others are those of what is left. -/
theorem pieces_of_strtok_r {s delim token rest : List Char}
    (h : strtok_r s delim = some (token, rest)) :
    pieces (delim.contains ·) s = token :: pieces (delim.contains ·) rest
      ∧ rest.length < s.length := by
  have hlen := (List.dropWhile_sublist (p := (delim.contains ·)) (l := s)).length_le
  unfold strtok_r at h
  rw [← pieces_dropWhile]
  cases hs : s.dropWhile (delim.contains ·) with
  | nil =>
      rw [hs] at h
      cases h
  | cons c t =>
      have hc : ¬ delim.contains c := by
        have hhead := List.head?_dropWhile_not (delim.contains ·) s
        rw [hs] at hhead
        exact Bool.eq_false_iff.mp hhead
      rw [hs] at h hlen
      obtain ⟨rfl, rfl⟩ := Prod.mk.inj (Option.some.inj h)
      refine ⟨pieces_cons_of_neg hc t, ?_⟩
      rw [List.dropWhile_cons_of_pos (by simpa using hc), List.length_tail]
      have hdrop := (List.dropWhile_sublist (p := (! delim.contains ·)) (l := t)).length_le
      rw [List.length_cons] at hlen
      omega

end SysInC.Tokens
