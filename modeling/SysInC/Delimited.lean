/-
Lists cut at a separator: what a search for a text sees of the pieces.

A text without the separator begins the list exactly when it begins the first piece, and stands
behind a separator exactly when it begins another piece.
-/
import Mathlib.Data.List.Infix
import Mathlib.Tactic.Common

set_option autoImplicit false

namespace SysInC.Delimited

variable {α : Type*} [DecidableEq α] {a : α} {key : List α}

/-! ## Up to a separator -/

theorem takeWhile_append (hkey : a ∉ key) (rest : List α) :
    (key ++ rest).takeWhile (· ≠ a) = key ++ rest.takeWhile (· ≠ a) := by
  refine List.takeWhile_append_of_pos fun c hc => ?_
  rw [decide_eq_true_iff]
  rintro rfl
  exact hkey hc

theorem takeWhile_self (hkey : a ∉ key) : key.takeWhile (· ≠ a) = key := by
  simpa using takeWhile_append hkey []

theorem takeWhile_append_cons (hkey : a ∉ key) (rest : List α) :
    (key ++ a :: rest).takeWhile (· ≠ a) = key := by
  rw [takeWhile_append hkey, List.takeWhile_cons_of_neg (by simp), List.append_nil]

theorem dropWhile_append_cons (hkey : a ∉ key) (rest : List α) :
    (key ++ a :: rest).dropWhile (· ≠ a) = a :: rest := by
  have hsplit := List.takeWhile_append_dropWhile (p := (· ≠ a)) (l := key ++ a :: rest)
  rw [takeWhile_append_cons hkey] at hsplit
  exact List.append_cancel_left hsplit

/-! ## Pieces -/

/-- The first piece. -/
def first (a : α) (l : List α) : List α := l.takeWhile (· ≠ a)

/-- The pieces behind a separator. -/
def others (a : α) (l : List α) : List (List α) := (l.splitOn a).tail

theorem splitOn_eq (a : α) (l : List α) : l.splitOn a = first a l :: others a l := by
  unfold others first
  induction l with
  | nil => rfl
  | cons c l ih =>
      rw [List.splitOn_cons_eq_if_modifyHead]
      by_cases hc : c = a
      · rw [if_pos (beq_iff_eq.mpr hc), List.takeWhile_cons_of_neg (by simpa using hc)]
        rfl
      · rw [if_neg (by simpa using hc), List.takeWhile_cons_of_pos (by simpa using hc), ih]
        rfl

theorem others_cons_self (a : α) (l : List α) : others a (a :: l) = first a l :: others a l := by
  unfold others
  rw [List.splitOn_cons_eq_if_modifyHead, if_pos (beq_self_eq_true a), List.tail_cons]
  exact splitOn_eq a l

theorem others_cons_of_ne {c : α} (hc : c ≠ a) (l : List α) : others a (c :: l) = others a l := by
  unfold others
  rw [List.splitOn_cons_eq_if_modifyHead, if_neg (by simpa using hc), splitOn_eq]
  rfl

/-- The list is its first piece, or goes on with a separator and the other pieces. -/
theorem first_cases (a : α) (l : List α) : l = first a l ∧ others a l = []
    ∨ ∃ rest, l = first a l ++ a :: rest ∧ others a l = rest.splitOn a := by
  unfold first
  induction l with
  | nil => exact Or.inl ⟨rfl, rfl⟩
  | cons c l ih =>
      by_cases hc : c = a
      · rw [hc, others_cons_self, List.takeWhile_cons_of_neg (by simp)]
        exact Or.inr ⟨l, rfl, (splitOn_eq a l).symm⟩
      · rw [others_cons_of_ne hc, List.takeWhile_cons_of_pos (by simpa using hc)]
        rcases ih with ⟨hl, hothers⟩ | ⟨rest, hl, hothers⟩
        · exact Or.inl ⟨congrArg (List.cons c) hl, hothers⟩
        · exact Or.inr ⟨rest, congrArg (List.cons c) hl, hothers⟩

/-- The beginning of the list is that of its first piece. -/
theorem prefix_first_iff (hkey : a ∉ key) (l : List α) : key <+: first a l ↔ key <+: l := by
  refine ⟨fun h => h.trans (List.takeWhile_prefix _), fun h => ?_⟩
  obtain ⟨rest, rfl⟩ := h
  rw [first, takeWhile_append hkey]
  exact List.prefix_append _ _

/-- What stands behind a separator is the beginning of another piece. -/
theorem infix_others_iff (hkey : a ∉ key) (l : List α) :
    a :: key <:+: l ↔ ∃ piece ∈ others a l, key <+: piece := by
  induction l with
  | nil =>
      refine iff_of_false (fun h => List.cons_ne_nil _ _ (List.infix_nil.mp h)) ?_
      rintro ⟨piece, hpiece, -⟩
      exact absurd hpiece List.not_mem_nil
  | cons c l ih =>
      rw [List.infix_cons_iff, ih]
      by_cases hc : c = a
      · rw [hc, others_cons_self, List.cons_prefix_cons, ← prefix_first_iff hkey l]
        constructor
        · rintro (⟨-, hfirst⟩ | ⟨piece, hpiece, hprefix⟩)
          · exact ⟨_, List.mem_cons_self, hfirst⟩
          · exact ⟨piece, List.mem_cons_of_mem _ hpiece, hprefix⟩
        · rintro ⟨piece, hpiece, hprefix⟩
          rcases List.mem_cons.mp hpiece with rfl | hpiece
          · exact Or.inl ⟨rfl, hprefix⟩
          · exact Or.inr ⟨piece, hpiece, hprefix⟩
      · rw [others_cons_of_ne hc, List.cons_prefix_cons]
        exact or_iff_right fun h => hc h.1.symm

theorem not_mem_first (a : α) (l : List α) : a ∉ first a l := by
  intro h
  have hne := List.all_eq_true.mp List.all_takeWhile a h
  exact absurd rfl (of_decide_eq_true hne)

theorem not_mem_of_mem_splitOn (l : List α) : ∀ piece ∈ l.splitOn a, a ∉ piece := by
  induction l with
  | nil =>
      intro piece hpiece
      rw [List.splitOn_nil] at hpiece
      rw [List.mem_singleton.mp hpiece]
      exact List.not_mem_nil
  | cons c l ih =>
      rw [splitOn_eq] at ih ⊢
      refine List.forall_mem_cons.mpr ⟨not_mem_first a _, ?_⟩
      by_cases hc : c = a
      · rw [hc, others_cons_self]
        exact ih
      · rw [others_cons_of_ne hc]
        exact (List.forall_mem_cons.mp ih).2

/-- A piece is a part of the list. -/
theorem infix_of_mem_splitOn (l : List α) : ∀ piece ∈ l.splitOn a, piece <:+: l := by
  have hfirst (l : List α) : first a l <:+: l := (List.takeWhile_prefix _).isInfix
  induction l with
  | nil => simp
  | cons c l ih =>
      rw [splitOn_eq] at ih ⊢
      refine List.forall_mem_cons.mpr ⟨hfirst _, fun piece hpiece => ?_⟩
      have hold : piece ∈ first a l :: others a l := by
        by_cases hc : c = a
        · rwa [hc, others_cons_self] at hpiece
        · rw [others_cons_of_ne hc] at hpiece
          exact List.mem_cons_of_mem _ hpiece
      exact (ih piece hold).trans (List.suffix_cons c l).isInfix

/-- The first two pieces of a list. -/
theorem two_pieces_iff (l x y : List α) :
    ((l.splitOn a)[0]? = some x ∧ (l.splitOn a)[1]? = some y) ↔
      a ∉ x ∧ a ∉ y ∧ (l = x ++ a :: y ∨ x ++ a :: (y ++ [a]) <+: l) := by
  constructor
  · rintro ⟨hx, hy⟩
    refine ⟨not_mem_of_mem_splitOn l x (List.mem_of_getElem? hx),
      not_mem_of_mem_splitOn l y (List.mem_of_getElem? hy), ?_⟩
    have hjoin := (List.intercalate_splitOn a : [a].intercalate (l.splitOn a) = l)
    obtain ⟨pieces, hpieces⟩ : ∃ pieces, l.splitOn a = x :: y :: pieces := by
      cases hsplit : l.splitOn a with
      | nil =>
          rw [hsplit] at hx
          exact nomatch hx
      | cons x' tail =>
          rw [hsplit] at hx hy
          cases tail with
          | nil => exact nomatch hy
          | cons y' pieces =>
              obtain rfl := Option.some.inj hx
              obtain rfl := Option.some.inj hy
              exact ⟨pieces, rfl⟩
    rw [hpieces, List.intercalate_cons_cons] at hjoin
    cases pieces with
    | nil =>
        refine Or.inl ?_
        rw [← hjoin, List.intercalate_singleton, List.append_assoc, List.singleton_append]
    | cons z pieces =>
        refine Or.inr ⟨[a].intercalate (z :: pieces), ?_⟩
        rw [← hjoin, List.intercalate_cons_cons]
        simp only [List.append_assoc, List.cons_append, List.nil_append]
  · rintro ⟨hx, hy, rfl | ⟨rest, rfl⟩⟩
    · rw [List.splitOn_append_cons_self_of_not_mem hx, List.splitOn_eq_singleton hy]
      exact ⟨rfl, rfl⟩
    · rw [List.append_assoc, List.cons_append, List.append_assoc, List.singleton_append,
        List.splitOn_append_cons_self_of_not_mem hx, List.splitOn_append_cons_self_of_not_mem hy]
      exact ⟨rfl, rfl⟩

theorem first_append (hkey : a ∉ key) (rest : List α) : first a (key ++ a :: rest) = key :=
  takeWhile_append_cons hkey rest

/-- Two texts that are ended are not one the beginning of the other. -/
theorem eq_of_ended_prefix {l m : List α} (hl : a ∉ l) (hm : a ∉ m) (h : l ++ [a] <+: m ++ [a]) :
    l = m := by
  obtain ⟨rest, hrest⟩ := h
  have hfirst := congrArg (first a) hrest
  rwa [List.append_assoc, List.singleton_append, first_append hl, first_append hm] at hfirst

/-- The first two pieces are in the list. -/
theorem two_pieces_subset {l x y : List α} (hx : (l.splitOn a)[0]? = some x)
    (hy : (l.splitOn a)[1]? = some y) : x ⊆ l ∧ y ⊆ l := by
  obtain ⟨-, -, rfl | hprefix⟩ := (two_pieces_iff l x y).mp ⟨hx, hy⟩
  · exact ⟨List.subset_append_left _ _,
      fun c hc => List.mem_append_right _ (List.mem_cons_of_mem _ hc)⟩
  · exact ⟨fun c hc => hprefix.subset (List.mem_append_left _ hc), fun c hc =>
      hprefix.subset (List.mem_append_right _
        (List.mem_cons_of_mem _ (List.mem_append_left _ hc)))⟩

/-! ## Lines

A line is ended by the separator; the last one may be not. -/

/-- Every line is ended. -/
def Complete (a : α) (l : List α) : Prop := l = [] ∨ l.getLast? = some a

/-- The pieces without the empty one behind the last separator. -/
def rows (a : α) (l : List α) : List (List α) :=
  if (l.splitOn a).getLast? = some [] then (l.splitOn a).dropLast else l.splitOn a

/-- The lines one behind the other, all of them ended. -/
def unrows (a : α) (lines : List (List α)) : List α := lines.flatMap (· ++ [a])

omit [DecidableEq α] in
theorem unrows_eq (a : α) {pieces : List (List α)} (h : pieces ≠ []) :
    unrows a pieces = [a].intercalate pieces ++ [a] := by
  unfold unrows
  induction pieces with
  | nil => exact absurd rfl h
  | cons piece pieces ih =>
      cases pieces with
      | nil => rw [List.flatMap_singleton, List.intercalate_singleton]
      | cons next pieces =>
          rw [List.flatMap_cons, ih (List.cons_ne_nil _ _), List.intercalate_cons_cons]
          simp only [List.append_assoc]

theorem unrows_splitOn (a : α) (l : List α) : unrows a (l.splitOn a) = l ++ [a] := by
  rw [unrows_eq a (List.splitOn_ne_nil a l), List.intercalate_splitOn]

theorem rows_concat (a : α) (l : List α) : rows a (l ++ [a]) = l.splitOn a := by
  unfold rows
  rw [List.splitOn_append_cons_self, List.splitOn_nil, if_pos List.getLast?_concat,
    List.dropLast_concat]

theorem unrows_rows {l : List α} (h : Complete a l) : unrows a (rows a l) = l := by
  rcases h with rfl | hl
  · rfl
  · obtain ⟨l, rfl⟩ := List.getLast?_eq_some_iff.mp hl
    rw [rows_concat, unrows_splitOn]

theorem unrows_rows_of_unended {l : List α} (h : ¬Complete a l) :
    unrows a (rows a l) = l ++ [a] := by
  unfold rows
  split_ifs with hlast
  · -- the last piece is empty, so that the text is ended
    exfalso
    obtain ⟨front, hfront⟩ := List.getLast?_eq_some_iff.mp hlast
    have hl := unrows_splitOn a l
    rw [hfront, unrows, List.flatMap_append, List.flatMap_singleton, List.nil_append,
      List.append_left_inj] at hl
    refine h ?_
    rcases List.eq_nil_or_concat front with rfl | ⟨front, piece, rfl⟩
    · exact Or.inl hl.symm
    · rw [List.concat_eq_append, List.flatMap_append, List.flatMap_singleton,
        ← List.append_assoc] at hl
      exact Or.inr (hl ▸ List.getLast?_concat)
  · exact unrows_splitOn a l

/-- Another line. -/
theorem rows_append {l line : List α} (h : Complete a l) (hline : a ∉ line) :
    rows a (l ++ (line ++ [a])) = rows a l ++ [line] := by
  rcases h with rfl | hl
  · rw [List.nil_append, rows_concat, List.splitOn_eq_singleton hline]
    rfl
  · obtain ⟨l, rfl⟩ := List.getLast?_eq_some_iff.mp hl
    rw [← List.append_assoc, rows_concat, rows_concat, List.append_assoc, List.singleton_append,
      List.splitOn_append_cons_self, List.splitOn_eq_singleton hline]

/-- A text that has a line more and is ended. -/
theorem eq_of_rows {l m line : List α} (hm : m.getLast? = some a)
    (h : rows a m = rows a l ++ [line]) :
    Complete a l ∧ m = l ++ (line ++ [a]) ∨ ¬Complete a l ∧ m = l ++ a :: (line ++ [a]) := by
  have hunrows := unrows_rows (Or.inr hm)
  rw [h, unrows, List.flatMap_append, List.flatMap_singleton, ← unrows] at hunrows
  by_cases hl : Complete a l
  · rw [unrows_rows hl] at hunrows
    exact Or.inl ⟨hl, hunrows.symm⟩
  · rw [unrows_rows_of_unended hl, List.append_assoc, List.singleton_append] at hunrows
    exact Or.inr ⟨hl, hunrows.symm⟩

theorem mem_splitOn_of_mem_rows {l line : List α} (h : line ∈ rows a l) : line ∈ l.splitOn a := by
  unfold rows at h
  split_ifs at h
  · exact List.mem_of_mem_dropLast h
  · exact h

theorem not_mem_of_mem_rows {l line : List α} (h : line ∈ rows a l) : a ∉ line :=
  not_mem_of_mem_splitOn l line (mem_splitOn_of_mem_rows h)

end SysInC.Delimited
