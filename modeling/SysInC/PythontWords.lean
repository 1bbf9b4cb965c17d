/-
What `replace_operators` of `src/pythont/pythont.c` changes, against the names and literals of the
expression.

The loop looks for its words at every place that it takes to be outside of quotes. It does not look
at what stands in front of a word, and whether it is inside of a literal it tells from the one
character in front of each quote. `replace_operators_respects_iff` says when nothing but whole words
is changed all the same: every place where the loop finds a word is the beginning of that word.
Nor may any of them be the beginning of a `sum(` or `len(` with an argument that does not end within
63 characters, as its first letter is dropped.

Of the words no more is used than how they differ: a word and what stands for it part before any
other word may begin (`edits_apart`), so that the text written shows what was changed.
-/
import Mathlib.Data.List.GetD
import Mathlib.Data.List.TakeWhile
import SysInC.Delimited
import SysInC.PythontPieces

set_option autoImplicit false

namespace SysInC.PythontRewrite

open Delimited (takeWhile_append_cons)

/-! ## How the words differ -/

/-- They differ at a place that both have. -/
def Apart (a b : List Char) : Prop := ¬a <+: b ∧ ¬b <+: a

instance (a b : List Char) : Decidable (Apart a b) := inferInstanceAs (Decidable (_ ∧ _))

theorem Apart.absurd {a b s : List Char} (h : Apart a b) (ha : a <+: s) (hb : b <+: s) : False := by
  rcases List.prefix_or_prefix_of_prefix ha hb with hab | hba
  · exact h.1 hab
  · exact h.2 hba

/-- All that is looked for. -/
def patterns : List (List Char) := words.map (·.text.toList) ++ ["sum(".toList, "len(".toList]

/-- A text that is looked for and how what stands for it begins, but for `//`. -/
def edits : List (List Char × List Char) :=
  (words.filter (·.text ≠ "//")).map (fun w => (w.text.toList, w.fragment.toList))
    ++ [("sum(".toList, "py_sum(".toList), ("len(".toList, "len_".toList),
      ("len(".toList, "(int64_t)".toList)]

/-- What is left where the argument is not closed. -/
def drops : List (List Char × List Char) := [("sum(".toList, ['u']), ("len(".toList, ['e'])]

/-- The place where two texts differ, from one. -/
def depth : List Char → List Char → ℕ
  | c :: a, d :: b => if c = d then depth a b + 1 else 1
  | _, _ => 0

/-- They differ before another word may begin. -/
theorem edits_apart : ∀ e ∈ edits ++ drops, Apart (e.1.take (depth e.1 e.2)) e.2
    ∧ ∀ j < depth e.1 e.2, 0 < j → ∀ p ∈ patterns, Apart p (e.1.drop j) := by
  decide

theorem edits_drops_apart : ∀ e ∈ edits, ∀ d ∈ drops, e.1 = d.1 → Apart e.2 d.2 := by
  decide

theorem patterns_apart : ∀ p ∈ patterns, ∀ q ∈ patterns, p = q ∨ Apart p q := by
  decide

theorem words_texts : ∀ w ∈ words, ∀ w' ∈ words, w.text.toList = w'.text.toList → w = w' := by
  decide

/-- No word has a quote or a closing parenthesis in it, and none is empty. -/
theorem patterns_plain : ∀ p ∈ patterns, (∀ c ∈ p, is_quote c = false ∧ c ≠ ')') ∧ p ≠ [] := by
  have hall : ∀ p ∈ patterns, p.any (fun c => is_quote c || c == ')') = false ∧ p ≠ [] := by
    decide
  refine fun p hp => ⟨fun c hc => ?_, (hall p hp).2⟩
  have hc' := List.any_eq_false.mp (hall p hp).1 c hc
  rw [Bool.or_eq_true, not_or, Bool.not_eq_true, beq_iff_eq] at hc'
  exact hc'

theorem patterns_heads : ∀ p ∈ patterns, (p = "//".toList ∨ p.head? ≠ some '/')
    ∧ ∀ d ∈ drops, p.head? ≠ d.2.head? := by
  decide

theorem edits_heads : ∀ e ∈ edits, e.2 ≠ [] ∧ e.2.head? ≠ some '/' := by
  decide

/-- A word that asks for its end is a name. -/
theorem words_ends : ∀ w ∈ words, w.boundary = .any
    ∨ ∃ p ∈ (lex w.text.toList).getLast?, ∃ t, p = .name t := by
  intro w hw
  have hall : ∀ w ∈ words, w.boundary = .any ∨ ((lex w.text.toList).getLast?.any fun p =>
      match p with
      | .name _ => true
      | _ => false) = true := by decide
  refine (hall w hw).imp_right fun hlast => ?_
  obtain ⟨p, hp, hname⟩ := Option.any_eq_true .. |>.mp hlast
  refine ⟨p, hp, ?_⟩
  cases p with
  | name t => exact ⟨t, rfl⟩
  | literal t => exact absurd hname Bool.false_ne_true
  | sign c => exact absurd hname Bool.false_ne_true

/-! ## Changes of the text -/

/-- A change of whole words as one of the text: what stands for the front, and what is behind. -/
inductive Edit (symbols : List symbol_t) : List Char → List Char → List Char → Prop
  | word {w : word_t} {u : List Char} : w ∈ words → w.boundary.allows (u.headD '\x00') = true →
      Edit symbols (w.text.toList ++ u) w.fragment.toList u
  | sum {t u : List Char} : ')' ∉ t →
      Edit symbols ("sum(".toList ++ (t ++ ')' :: u)) (sum_call t) u
  | len_sized {t u : List Char} : ')' ∉ t → is_sized symbols t = true →
      Edit symbols ("len(".toList ++ (t ++ ')' :: u)) (len_call symbols t) u
  | len_str {u : List Char} : is_sized symbols (u.takeWhile (· ≠ ')')) = false →
      Edit symbols ("len(".toList ++ u) "(int64_t)strlen(".toList u

variable {symbols : List symbol_t} {s u v r out fragment : List Char}

/-- Behind a whole word there is no letter. -/
theorem allows_behind {w : word_t} (hw : w ∈ words) {ps : List piece_t}
    (h : lex s = lex w.text.toList ++ ps) : w.boundary.allows ((text ps).headD '\x00') = true := by
  rcases words_ends w hw with hany | ⟨p, hp, t, rfl⟩
  · rw [hany]
    rfl
  · obtain ⟨front, hfront⟩ := List.getLast?_eq_some_iff.mp hp
    rw [hfront, List.append_assoc, List.singleton_append] at h
    have hident := lex_name_behind h
    rw [is_ident, Bool.or_eq_false_iff, Bool.or_eq_false_iff] at hident
    cases hb : w.boundary with
    | any => rfl
    | not_alnum => rw [boundary_t.allows, hident.1.1]; rfl
    | not_word =>
        rw [boundary_t.allows, hident.1.1, Bool.not_false, Bool.true_and, bne, hident.1.2]
        rfl

theorem Changes.edit {ps : List piece_t} (h : Changes symbols (lex s) fragment ps) :
    ∃ front u, lex s = front ++ lex u ∧ ps = lex u ∧ Edit symbols s fragment u := by
  generalize hs : lex s = qs at h
  cases h with
  | @word w ps hw =>
      obtain ⟨htext, hps⟩ := lex_behind hs
      refine ⟨_, text ps, by rw [← hps], hps, ?_⟩
      rw [htext, text_lex]
      exact Edit.word hw (allows_behind hw hs)
  | @sum ts ps ht =>
      have hs' : lex s = (lex "sum(".toList ++ (ts ++ [.sign ')'])) ++ ps := by
        rw [hs, List.append_assoc, List.append_assoc]
        rfl
      obtain ⟨htext, hps⟩ := lex_behind hs'
      refine ⟨lex "sum(".toList ++ (ts ++ [.sign ')']), text ps, ?_, hps, ?_⟩
      · rw [← hps, ← hs', hs]
      · rw [htext, text_append, text_append, text_lex, List.append_assoc, List.append_assoc]
        exact Edit.sum ht
  | @len_sized ts ps ht hsized =>
      have hs' : lex s = (lex "len(".toList ++ (ts ++ [.sign ')'])) ++ ps := by
        rw [hs, List.append_assoc, List.append_assoc]
        rfl
      obtain ⟨htext, hps⟩ := lex_behind hs'
      refine ⟨lex "len(".toList ++ (ts ++ [.sign ')']), text ps, ?_, hps, ?_⟩
      · rw [← hps, ← hs', hs]
      · rw [htext, text_append, text_append, text_lex, List.append_assoc, List.append_assoc]
        exact Edit.len_sized ht hsized
  | len_str hstr =>
      obtain ⟨htext, hps⟩ := lex_behind hs
      refine ⟨_, text ps, by rw [← hps], hps, ?_⟩
      rw [htext, text_lex]
      exact Edit.len_str hstr

theorem sum_call_front (t : List Char) : "py_sum(".toList <+: sum_call t := by
  unfold sum_call
  rw [List.append_assoc, List.append_assoc, List.append_assoc]
  exact List.prefix_append _ _

theorem calls_mem : "sum(".toList ∈ patterns ∧ "len(".toList ∈ patterns
    ∧ ("sum(".toList, "py_sum(".toList) ∈ edits ∧ ("len(".toList, "len_".toList) ∈ edits
    ∧ ("len(".toList, "(int64_t)".toList) ∈ edits := by
  decide

/-- The text that an edit is found by. -/
theorem Edit.pattern (h : Edit symbols s fragment u) : ∃ p ∈ patterns, p <+: s
    ∧ ((p = "//".toList ∧ fragment = "/".toList ∧ s = "//".toList ++ u)
      ∨ ∃ e ∈ edits, e.1 = p ∧ e.2 <+: fragment) := by
  cases h with
  | @word w u hw _ =>
      refine ⟨w.text.toList, List.mem_append_left _ (List.mem_map_of_mem hw),
        List.prefix_append _ _, ?_⟩
      by_cases hslash : w.text = "//"
      · have heq : w = ⟨"//", .any, "/"⟩ :=
          words_texts w hw _ (by decide) (congrArg String.toList hslash)
        rw [heq]
        exact Or.inl ⟨rfl, rfl, rfl⟩
      · refine Or.inr ⟨(w.text.toList, w.fragment.toList), ?_, rfl, List.prefix_rfl⟩
        exact List.mem_append_left _ (List.mem_map_of_mem (f := fun w : word_t =>
          (w.text.toList, w.fragment.toList)) (List.mem_filter.mpr ⟨hw, by simpa using hslash⟩))
  | @sum t u ht =>
      obtain ⟨hsum, -, hedit, -⟩ := calls_mem
      exact ⟨_, hsum, List.prefix_append _ _, Or.inr ⟨_, hedit, rfl, sum_call_front t⟩⟩
  | @len_sized t u ht hsized =>
      obtain ⟨-, hlen, -, hlist, hdict⟩ := calls_mem
      refine ⟨_, hlen, List.prefix_append _ _, Or.inr ?_⟩
      rw [is_sized, Option.any_eq_true] at hsized
      obtain ⟨x, hx, htype⟩ := hsized
      have htypes : x.type = .VAR_LIST ∨ x.type = .VAR_DICT := by simpa using htype
      rw [len_call, hx, Option.map_some]
      rcases htypes with hx | hx
      · rw [hx]
        exact ⟨_, hlist, rfl, List.prefix_append _ _⟩
      · rw [hx]
        refine ⟨_, hdict, rfl, ?_⟩
        simp only [List.append_assoc]
        exact List.prefix_append _ _
  | len_str _ =>
      obtain ⟨-, hlen, -, -, hdict⟩ := calls_mem
      exact ⟨_, hlen, List.prefix_append _ _, Or.inr ⟨_, hdict, rfl, by decide⟩⟩

theorem same_pattern {p q : List Char} (hp : p ∈ patterns) (hq : q ∈ patterns) (hps : p <+: s)
    (hqs : q <+: s) : p = q :=
  (patterns_apart p hp q hq).resolve_right fun h => h.absurd hps hqs

theorem word_mem {w : word_t} (hw : w ∈ words) : w.text.toList ∈ patterns :=
  List.mem_append_left _ (List.mem_map_of_mem hw)

theorem text_ne_call : ∀ w ∈ words, w.text.toList ≠ "sum(".toList ∧ w.text.toList ≠ "len(".toList :=
  by decide

/-- The argument ends with the first parenthesis. -/
theorem same_argument {t t' u u' : List Char} (ht : ')' ∉ t) (ht' : ')' ∉ t')
    (h : t ++ ')' :: u = t' ++ ')' :: u') : t = t' ∧ u = u' := by
  have hsame : t = t' := by
    rw [← takeWhile_append_cons ht u, h, takeWhile_append_cons ht']
  subst hsame
  exact ⟨rfl, List.tail_eq_of_cons_eq (List.append_cancel_left h)⟩

/-- A text can be changed in one way at its front. -/
theorem Edit.unique {fragment' u' : List Char} (h : Edit symbols s fragment u)
    (h' : Edit symbols s fragment' u') : fragment = fragment' ∧ u = u' := by
  generalize hs' : s = s' at h'
  cases h with
  | @word w u hw _ =>
      have hfront : w.text.toList <+: s' := hs' ▸ List.prefix_append _ _
      cases h' with
      | @word w' u' hw' _ =>
          obtain rfl := words_texts w hw w' hw'
            (same_pattern (word_mem hw) (word_mem hw') hfront (List.prefix_append _ _))
          exact ⟨rfl, List.append_cancel_left hs'⟩
      | sum _ => exact absurd (same_pattern (word_mem hw) calls_mem.1 hfront
          (List.prefix_append _ _)) (text_ne_call w hw).1
      | len_sized _ _ => exact absurd (same_pattern (word_mem hw) calls_mem.2.1 hfront
          (List.prefix_append _ _)) (text_ne_call w hw).2
      | len_str _ => exact absurd (same_pattern (word_mem hw) calls_mem.2.1 hfront
          (List.prefix_append _ _)) (text_ne_call w hw).2
  | @sum t u ht =>
      have hfront : "sum(".toList <+: s' := hs' ▸ List.prefix_append _ _
      cases h' with
      | @word w' u' hw' _ => exact absurd (same_pattern (word_mem hw') calls_mem.1
          (List.prefix_append _ _) hfront) (text_ne_call w' hw').1
      | @sum t' u' ht' =>
          obtain ⟨rfl, rfl⟩ := same_argument ht ht' (List.append_cancel_left hs')
          exact ⟨rfl, rfl⟩
      | len_sized _ _ => exact absurd (same_pattern calls_mem.1 calls_mem.2.1 hfront
          (List.prefix_append _ _)) (by decide)
      | len_str _ => exact absurd (same_pattern calls_mem.1 calls_mem.2.1 hfront
          (List.prefix_append _ _)) (by decide)
  | @len_sized t u ht hsized =>
      have hfront : "len(".toList <+: s' := hs' ▸ List.prefix_append _ _
      cases h' with
      | @word w' u' hw' _ => exact absurd (same_pattern (word_mem hw') calls_mem.2.1
          (List.prefix_append _ _) hfront) (text_ne_call w' hw').2
      | sum _ => exact absurd (same_pattern calls_mem.1 calls_mem.2.1
          (List.prefix_append _ _) hfront) (by decide)
      | @len_sized t' u' ht' _ =>
          obtain ⟨rfl, rfl⟩ := same_argument ht ht' (List.append_cancel_left hs')
          exact ⟨rfl, rfl⟩
      | len_str hstr =>
          rw [← List.append_cancel_left hs', takeWhile_append_cons ht, hsized] at hstr
          exact absurd hstr.symm Bool.false_ne_true
  | @len_str u hstr =>
      have hfront : "len(".toList <+: s' := hs' ▸ List.prefix_append _ _
      cases h' with
      | @word w' u' hw' _ => exact absurd (same_pattern (word_mem hw') calls_mem.2.1
          (List.prefix_append _ _) hfront) (text_ne_call w' hw').2
      | sum _ => exact absurd (same_pattern calls_mem.1 calls_mem.2.1
          (List.prefix_append _ _) hfront) (by decide)
      | @len_sized t' u' ht' hsized =>
          rw [List.append_cancel_left hs', takeWhile_append_cons ht', hsized] at hstr
          exact absurd hstr.symm Bool.false_ne_true
      | len_str _ => exact ⟨rfl, List.append_cancel_left hs'⟩

theorem Edit.shorter (h : Edit symbols s fragment u) : u.length < s.length := by
  have hpos : ∀ p ∈ patterns, 0 < p.length := fun p hp =>
    List.length_pos_iff.mpr (patterns_plain p hp).2
  have hsum := hpos _ calls_mem.1
  have hlen := hpos _ calls_mem.2.1
  cases h with
  | @word w u hw _ =>
      have hword := hpos _ (word_mem hw)
      rw [List.length_append]
      omega
  | sum _ =>
      rw [List.length_append, List.length_append, List.length_cons]
      omega
  | len_sized _ _ =>
      rw [List.length_append, List.length_append, List.length_cons]
      omega
  | len_str _ =>
      rw [List.length_append]
      omega

/-! ## What the loop finds -/

/-- The argument of a `sum(` or `len(` here ends soon enough. -/
def Closed (s : List Char) : Prop :=
  "sum(".toList <+: s ∨ "len(".toList <+: s → closed (s.drop 4) = true

theorem here_iff (w : word_t) (s : List Char) : w.here s = true
    ↔ ∃ u, s = w.text.toList ++ u ∧ w.boundary.allows (u.headD '\x00') = true := by
  rw [word_t.here, Bool.and_eq_true, List.isPrefixOf_iff_prefix]
  constructor
  · rintro ⟨⟨u, rfl⟩, hallows⟩
    refine ⟨u, rfl, ?_⟩
    rw [List.getD_append_right _ _ _ _ le_rfl, Nat.sub_self] at hallows
    cases u <;> exact hallows
  · rintro ⟨u, rfl, hallows⟩
    refine ⟨List.prefix_append _ _, ?_⟩
    rw [List.getD_append_right _ _ _ _ le_rfl, Nat.sub_self]
    cases u <;> exact hallows

theorem argument_closed (h : closed s = true) :
    ∃ u, s = target s ++ ')' :: u ∧ ')' ∉ target s := by
  have hend : s.getD (target s).length '\x00' = ')' := of_decide_eq_true h
  have hpre : target s <+: s := (List.take_prefix _ _).trans (List.takeWhile_prefix _)
  obtain ⟨v, hv⟩ := hpre
  have hopen : ')' ∉ target s := by
    intro hmem
    have hne := List.mem_takeWhile_imp (List.mem_of_mem_take hmem)
    exact of_decide_eq_true hne rfl
  rw [← hv, List.getD_append_right _ _ _ _ (by rw [hv])] at hend
  rw [hv, Nat.sub_self] at hend
  cases v with
  | nil => exact absurd hend (by decide)
  | cons c v =>
      obtain rfl : c = ')' := hend
      exact ⟨v, hv.symm, hopen⟩

theorem len_call_str {t : List Char} (h : is_sized symbols t = false) :
    len_call symbols t = "(int64_t)strlen(".toList ++ (t ++ ")".toList) := by
  rw [is_sized] at h
  rw [len_call]
  cases hfind : find_symbol symbols t with
  | none =>
      dsimp only [Option.map_none]
      rw [List.append_assoc]
  | some x =>
      rw [hfind, Option.any_some, decide_eq_false_iff_not, not_or] at h
      rw [Option.map_some]
      split
      · exact absurd (Option.some.inj ‹_›) h.1
      · exact absurd (Option.some.inj ‹_›) h.2
      · rw [List.append_assoc]

/-- A call with an argument that is closed. -/
theorem call_parts {p : List Char} (hp : p.length = 4) (hpre : p <+: s)
    (h : closed (s.drop 4) = true) : ∃ u, s = p ++ (target (s.drop 4) ++ ')' :: u)
      ∧ ')' ∉ target (s.drop 4) ∧ 4 + (target (s.drop 4)).length + 1 ≤ s.length
      ∧ s.drop (4 + (target (s.drop 4)).length + 1) = u := by
  obtain ⟨x, rfl⟩ := hpre
  have hdrop : (p ++ x).drop 4 = x := by rw [← hp, List.drop_left]
  rw [hdrop] at h ⊢
  obtain ⟨u, hu, hopen⟩ := argument_closed h
  have hlen := congrArg List.length hu
  rw [List.length_append, List.length_cons] at hlen
  refine ⟨u, by rw [← hu], hopen, by rw [List.length_append, hp]; omega, ?_⟩
  rw [Nat.add_assoc, ← List.drop_drop, hdrop]
  generalize target x = t at hu
  rw [hu, ← List.drop_drop, List.drop_left]
  rfl

/-- The three things that the loop can find: nothing that could be changed, an argument that is not
closed, or a change of the front and a text `t` behind it that is taken over as it is. -/
theorem rewrite_spec (symbols : List symbol_t) (s : List Char) :
    (rewrite symbols s = none ∧ ∀ f u, ¬Edit symbols s f u)
    ∨ (∃ d ∈ drops, rewrite symbols s = some ([], 1) ∧ d.1 <+: s ∧ ¬Closed s)
    ∨ ∃ f t u n, rewrite symbols s = some (f ++ t, n) ∧ n ≤ s.length ∧ s.drop n = u
      ∧ Edit symbols s f (t ++ u) ∧ Closed s
      ∧ (t = [] ∨ "len(".toList <+: s ∧ ∃ t₀, t = t₀ ++ [')']) := by
  have hword : ∀ w ∈ words, w.here s = true → ∃ u, w.text.toList.length ≤ s.length
      ∧ s.drop w.text.toList.length = u ∧ Edit symbols s w.fragment.toList u ∧ Closed s := by
    intro w hw hhere
    obtain ⟨u, rfl, hallows⟩ := (here_iff w s).mp hhere
    refine ⟨u, (List.prefix_append _ _).length_le, List.drop_left, Edit.word hw hallows, ?_⟩
    rintro (hpre | hpre)
    · exact absurd (same_pattern (word_mem hw) calls_mem.1 (List.prefix_append _ _) hpre)
        (text_ne_call w hw).1
    · exact absurd (same_pattern (word_mem hw) calls_mem.2.1 (List.prefix_append _ _) hpre)
        (text_ne_call w hw).2
  rw [rewrite]
  cases hbefore : words_before.find? (word_t.here · s) with
  | some w =>
      obtain ⟨u, hn, hu, hedit, hclosed⟩ := hword w
        (List.mem_append_left _ (List.mem_of_find?_eq_some hbefore))
        (List.find?_some (p := (word_t.here · s)) hbefore)
      refine Or.inr (Or.inr ⟨_, [], u, _, ?_, hn, hu, hedit, hclosed, Or.inl rfl⟩)
      rw [List.append_nil]
  | none =>
      dsimp only
      by_cases hsum : "sum(".toList.isPrefixOf s
      · rw [if_pos hsum]
        have hpre := List.isPrefixOf_iff_prefix.mp hsum
        by_cases hclosed : closed (s.drop 4)
        · rw [if_pos hclosed]
          obtain ⟨u, hs, hopen, hn, hdrop⟩ := call_parts (by decide) hpre hclosed
          refine Or.inr (Or.inr ⟨_, [], u, _, by rw [List.append_nil], hn, hdrop, ?_,
            fun _ => hclosed, Or.inl rfl⟩)
          rw [List.nil_append]
          generalize target (s.drop 4) = t at hs hopen ⊢
          rw [hs]
          exact Edit.sum hopen
        · rw [if_neg hclosed]
          exact Or.inr (Or.inl ⟨("sum(".toList, ['u']), by decide, rfl, hpre,
            fun h => hclosed (h (Or.inl hpre))⟩)
      · rw [if_neg hsum]
        by_cases hlen : "len(".toList.isPrefixOf s
        · rw [if_pos hlen]
          have hpre := List.isPrefixOf_iff_prefix.mp hlen
          by_cases hclosed : closed (s.drop 4)
          · rw [if_pos hclosed]
            obtain ⟨u, hs, hopen, hn, hdrop⟩ := call_parts (by decide) hpre hclosed
            cases hsized : is_sized symbols (target (s.drop 4)) with
            | true =>
                refine Or.inr (Or.inr ⟨_, [], u, _, by rw [List.append_nil], hn, hdrop, ?_,
                  fun _ => hclosed, Or.inl rfl⟩)
                rw [List.nil_append]
                generalize target (s.drop 4) = t at hs hopen hsized ⊢
                rw [hs]
                exact Edit.len_sized hopen hsized
            | false =>
                refine Or.inr (Or.inr ⟨"(int64_t)strlen(".toList, target (s.drop 4) ++ [')'], u, _,
                  by rw [len_call_str hsized]; rfl, hn, hdrop, ?_, fun _ => hclosed,
                  Or.inr ⟨hpre, _, rfl⟩⟩)
                generalize target (s.drop 4) = t at hs hopen hsized ⊢
                rw [hs, List.append_assoc]
                refine Edit.len_str ?_
                rw [takeWhile_append_cons hopen]
                exact hsized
          · rw [if_neg hclosed]
            exact Or.inr (Or.inl ⟨("len(".toList, ['e']), by decide, rfl, hpre,
              fun h => hclosed (h (Or.inr hpre))⟩)
        · rw [if_neg hlen]
          cases hbehind : words_behind.find? (word_t.here · s) with
          | some w =>
              obtain ⟨u, hn, hu, hedit, hclosed⟩ := hword w
                (List.mem_append_right _ (List.mem_of_find?_eq_some hbehind))
                (List.find?_some (p := (word_t.here · s)) hbehind)
              refine Or.inr (Or.inr ⟨_, [], u, _, ?_, hn, hu, hedit, hclosed, Or.inl rfl⟩)
              rw [List.append_nil]
          | none =>
              refine Or.inl ⟨rfl, fun f u hedit => ?_⟩
              cases hedit with
              | @word w u hw hallows =>
                  have hhere := (here_iff w _).mpr ⟨u, rfl, hallows⟩
                  rcases List.mem_append.mp hw with hw | hw
                  · exact List.find?_eq_none.mp hbefore w hw hhere
                  · exact List.find?_eq_none.mp hbehind w hw hhere
              | sum _ => exact hsum (List.isPrefixOf_iff_prefix.mpr (List.prefix_append _ _))
              | len_sized _ _ =>
                  exact hlen (List.isPrefixOf_iff_prefix.mpr (List.prefix_append _ _))
              | len_str _ =>
                  exact hlen (List.isPrefixOf_iff_prefix.mpr (List.prefix_append _ _))

end SysInC.PythontRewrite
