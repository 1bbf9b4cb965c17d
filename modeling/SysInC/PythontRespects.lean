/-
When `replace_operators` of `src/pythont/pythont.c` changes nothing but whole words outside of
string literals (`replace_operators_respects_iff`).

The loop and a change of whole words run over the expression side by side: in front of the loop
there is what is left of the piece that it is in, and the text behind that piece (`Out`). A
character that is written as it stands leads to the next such place (`Out.next`). Where the loop
changes something, the text written tells that a whole word must have been changed there
(`edit_forced`). Only the two slashes of `//` do not tell, and they are counted (`slashes`).
-/
import SysInC.PythontWords

set_option autoImplicit false

namespace SysInC.PythontRewrite

/-! ## Where something is found -/

/-- What the loop has in front of it wherever it finds something to be changed. -/
def sites_from (symbols : List symbol_t) : ℕ → Char → Option Char → List Char → List (List Char)
  | 0, _, _, _ => []
  | _ + 1, _, _, [] => []
  | fuel + 1, prev, quote, c :: s =>
    if is_quote c ∧ prev ≠ '\\' then sites_from symbols fuel c (toggle quote c) s
    else if quote.isSome then sites_from symbols fuel c quote s
    else
      match rewrite symbols (c :: s) with
      | some (_, n) =>
        (c :: s) :: sites_from symbols fuel ((c :: s).getD (n - 1) c) none ((c :: s).drop n)
      | none => sites_from symbols fuel c none s

def sites (symbols : List symbol_t) (expr : List Char) : List (List Char) :=
  sites_from symbols expr.length '\x00' none expr

/-- A whole word begins here, and if it is `sum` or `len` its argument ends soon enough. -/
def Whole (symbols : List symbol_t) (expr s : List Char) : Prop :=
  s ∈ starts expr ∧ (∃ fragment ps, Changes symbols (lex s) fragment ps) ∧ Closed s

variable {symbols : List symbol_t} {r u r' u' s v out fragment : List Char} {c : Char}

/-! ## Side by side -/

/-- What is left of a piece, and then some words changed in the text behind it. -/
def Out (symbols : List symbol_t) (r u out : List Char) : Prop :=
  ∃ o, out = r ++ o ∧ Rewrites symbols (lex u) o

/-- The next character, of the piece or the first one of another piece. -/
inductive Next : List Char → List Char → Char → List Char → List Char → Prop
  | inside {r u : List Char} {c : Char} : Next (c :: r) u c r u
  | start {c : Char} {t u : List Char} : (first c (t ++ u)).text = c :: t →
      Next [] (c :: (t ++ u)) c t u

/-- Whole words are changed right here. -/
def Changed (symbols : List symbol_t) (u out : List Char) : Prop :=
  ∃ fragment ps o, Changes symbols (lex u) fragment ps ∧ out = fragment ++ o ∧ Rewrites symbols ps o

theorem exists_next (h : r ++ u = c :: s) : ∃ r' u', Next r u c r' u' := by
  cases r with
  | nil =>
      obtain ⟨t, v, htext, rfl⟩ := first_spec c s
      rw [List.nil_append] at h
      rw [h]
      exact ⟨t, v, Next.start htext⟩
  | cons d r =>
      obtain ⟨rfl, -⟩ := List.cons_eq_cons.mp h
      exact ⟨r, u, Next.inside⟩

theorem Next.text (h : Next r u c r' u') : r ++ u = c :: (r' ++ u') := by
  cases h <;> rfl

theorem Next.written (h : Next r u c r' u') (hout : Out symbols r' u' out) :
    Out symbols r u (c :: out) := by
  obtain ⟨o, rfl, ho⟩ := hout
  cases h with
  | inside => exact ⟨o, rfl, ho⟩
  | start htext =>
      refine ⟨_, rfl, ?_⟩
      rw [lex_cons htext, ← List.cons_append, ← htext]
      exact Rewrites.copy ho

/-- The character is written as it stands, or whole words are changed. -/
theorem Out.next (h : Next r u c r' u') (hout : Out symbols r u out) :
    (∃ o, out = c :: o ∧ Out symbols r' u' o) ∨ (r = [] ∧ Changed symbols u out) := by
  obtain ⟨o, rfl, ho⟩ := hout
  cases h with
  | inside => exact Or.inl ⟨_, rfl, o, rfl, ho⟩
  | start htext =>
      have hlex := lex_cons htext
      rw [hlex] at ho
      generalize hps : first c (r' ++ u') :: lex u' = ps at ho
      cases ho with
      | nil => exact absurd hps (List.cons_ne_nil _ _)
      | @copy p ps o ho =>
          obtain ⟨rfl, rfl⟩ := List.cons_eq_cons.mp hps
          rw [htext]
          exact Or.inl ⟨r' ++ o, rfl, o, rfl, ho⟩
      | @change ps ps' fragment o hchange ho =>
          rw [← hps, ← hlex] at hchange
          exact Or.inr ⟨rfl, fragment, ps', o, hchange, rfl, ho⟩

/-- A character that is no part of a change leads on. -/
theorem Next.out_iff (h : Next r u c r' u') (hno : r = [] → ¬Changed symbols u (c :: out)) :
    Out symbols r u (c :: out) ↔ Out symbols r' u' out := by
  refine ⟨fun hout => ?_, h.written⟩
  rcases hout.next h with ⟨o, ho, hbehind⟩ | ⟨hr, hchanged⟩
  · rwa [List.tail_eq_of_cons_eq ho]
  · exact absurd hchanged (hno hr)

theorem Next.mem_starts (h : Next r u c r' u') {x : List Char} (hx : x.length ≤ (r' ++ u').length) :
    x ∈ starts u ↔ x ∈ starts u' := by
  cases h with
  | inside => exact Iff.rfl
  | start htext =>
      have hlex := lex_cons htext
      by_cases hle : x.length ≤ u'.length
      · have hfront : lex (c :: (r' ++ u')) = [first c (r' ++ u')] ++ lex u' := hlex
        exact mem_starts_behind hfront hle
      · have hcons : starts (c :: (r' ++ u')) = (c :: (r' ++ u')) :: starts u' := by
          rw [starts, hlex, List.tails_cons, List.map_cons, ← hlex, text_lex]
          rfl
        rw [hcons, List.mem_cons, or_iff_right]
        rintro rfl
        rw [List.length_cons] at hx
        exact Nat.not_succ_le_self _ hx

theorem Out.nil (h : Out symbols [] [] out) : out = [] := by
  obtain ⟨o, rfl, ho⟩ := h
  rw [lex_nil] at ho
  generalize hps : ([] : List piece_t) = ps at ho
  cases ho with
  | nil => rfl
  | copy _ => exact absurd hps.symm (List.cons_ne_nil _ _)
  | change hchange _ =>
      rw [← hps, ← lex_nil] at hchange
      obtain ⟨-, u, -, -, hedit⟩ := hchange.edit
      exact absurd hedit.shorter (Nat.not_lt_zero _)

/-- What is left of a piece has no slash at its end. -/
def Rest (r u : List Char) : Prop := r.getLast? ≠ some '/' ∨ u = []

theorem first_rest {t : List Char} (h : (first c (t ++ u)).text = c :: t) : Rest t u := by
  unfold first at h
  split at h
  · left
    intro hlast
    have ht : (t ++ u).takeWhile is_ident = t := List.tail_eq_of_cons_eq h
    have hmem := List.mem_of_getLast? hlast
    rw [← ht] at hmem
    exact absurd (List.mem_takeWhile_imp hmem) (by decide)
  · split at h
    · rename_i hquote
      obtain ⟨n, hopen, front⟩ := opening_spec c (t ++ u)
      obtain ⟨v, hv⟩ := front
      have hdrop : (c :: (t ++ u)).drop (opening c (t ++ u)).length = v := by
        rw [← hv, List.drop_left]
      rw [piece_t.text, hdrop] at h
      rcases (body_spec (opening c (t ++ u)) v).2 with hall | hend
      · right
        have hlen := congrArg List.length (h.symm.trans (by rw [hall, hv]))
        rw [List.length_cons, List.length_cons, List.length_append] at hlen
        exact List.length_eq_zero_iff.mp (by omega)
      · left
        obtain ⟨x, hx⟩ := hend
        intro hlast
        have hslash : (c :: t).getLast? = some '/' := by
          rw [List.getLast?_cons, hlast]
          rfl
        rw [← h, ← hx, hopen, ← List.replicate_succ, List.replicate_succ', ← List.append_assoc,
          ← List.append_assoc, List.getLast?_concat] at hslash
        rw [Option.some.inj hslash] at hquote
        exact absurd hquote (by decide)
    · have ht : [] = t := List.tail_eq_of_cons_eq h
      rw [← ht]
      exact Or.inl (by simp)

theorem Next.rest (h : Next r u c r' u') (hrest : Rest r u) : Rest r' u' := by
  cases h with
  | inside =>
      refine hrest.imp_left fun hne hlast => hne ?_
      rw [List.getLast?_cons, hlast]
      rfl
  | start htext => exact first_rest htext

/-! ## What the text written tells -/

/-- Where no word can begin, the text is written as it stands. -/
theorem Out.copied {t w : List Char} (ht : t <+: w)
    (hquiet : ∀ j < t.length, ∀ p ∈ patterns, Apart p (w.drop j)) (hw : w <+: r ++ u)
    (hout : Out symbols r u out) : t <+: out := by
  induction t generalizing w r u out with
  | nil => exact List.nil_prefix
  | cons x t ih =>
      obtain ⟨y, rfl⟩ := ht
      obtain ⟨z, hz⟩ := hw
      have hcons : r ++ u = x :: (t ++ y ++ z) := hz.symm
      obtain ⟨r', u', hnext⟩ := exists_next hcons
      have htext := List.tail_eq_of_cons_eq (hnext.text.symm.trans hcons)
      rcases hout.next hnext with ⟨o, rfl, ho⟩ | ⟨rfl, fragment, ps, o, hchange, -, -⟩
      · refine (List.prefix_cons_inj x).mpr (ih (List.prefix_append t y) ?_ ?_ ho)
        · intro j hj
          exact hquiet (j + 1) (Nat.succ_lt_succ hj)
        · exact ⟨z, htext.symm⟩
      · obtain ⟨-, u', -, -, hedit⟩ := hchange.edit
        obtain ⟨p, hp, hpre, -⟩ := hedit.pattern
        exact ((hquiet 0 (Nat.succ_pos _) p hp).absurd hpre ⟨z, hz⟩).elim

/-- What stands for a word is not written unless a whole word has been changed. -/
theorem edit_forced {e : List Char × List Char} (he : e ∈ edits ++ drops) (hs : e.1 <+: r ++ u)
    (hwritten : e.2 <+: out) (hout : Out symbols r u out) : r = [] ∧ Changed symbols u out := by
  obtain ⟨hapart, hquiet⟩ := edits_apart e he
  obtain ⟨w, f⟩ := e
  dsimp only at hs hwritten hapart hquiet
  cases w with
  | nil => exact absurd List.nil_prefix hapart.1
  | cons c w =>
      obtain ⟨z, hz⟩ := hs
      obtain ⟨r', u', hnext⟩ := exists_next hz.symm
      have htext : w ++ z = r' ++ u' := List.tail_eq_of_cons_eq (hz.trans hnext.text)
      rcases hout.next hnext with ⟨o, rfl, ho⟩ | hchanged
      · refine (hapart.absurd ?_ hwritten).elim
        generalize depth (c :: w) f = k at hquiet
        cases k with
        | zero => exact List.nil_prefix
        | succ k =>
            rw [List.take_succ_cons]
            refine (List.prefix_cons_inj c).mpr (ho.copied (List.take_prefix k w) ?_ ⟨z, htext⟩)
            intro j hj
            rw [List.length_take] at hj
            exact hquiet (j + 1) (by omega) (Nat.succ_pos _)
      · exact hchanged

/-! ## Slashes -/

/-- The slashes in front. -/
def slashes : List Char → ℕ
  | [] => 0
  | c :: s => if c = '/' then slashes s + 1 else 0

theorem edits_ne_slashes : ∀ e ∈ edits, e.1 ≠ "//".toList := by
  decide

theorem slashes_append {t : List Char} (h : ∃ c ∈ t, c ≠ '/') (x y : List Char) :
    slashes (t ++ x) = slashes (t ++ y) := by
  induction t with
  | nil =>
      obtain ⟨c, hc, -⟩ := h
      exact absurd hc List.not_mem_nil
  | cons c t ih =>
      rw [List.cons_append, List.cons_append, slashes, slashes]
      by_cases hc : c = '/'
      · rw [if_pos hc, if_pos hc, ih]
        obtain ⟨d, hd, hne⟩ := h
        rcases List.mem_cons.mp hd with rfl | hd
        · exact absurd hc hne
        · exact ⟨d, hd, hne⟩
      · rw [if_neg hc, if_neg hc]

theorem slashes_eq_zero {s : List Char} (h : s.head? ≠ some '/') : slashes s = 0 := by
  cases s with
  | nil => rfl
  | cons c s => exact if_neg fun hc => h (congrArg some hc)

theorem head_ne_of_front {p : List Char} {c : Char} (hne : p ≠ []) (hp : p.head? ≠ some c)
    (hpre : p <+: s) : s.head? ≠ some c := by
  obtain ⟨x, rfl⟩ := hpre
  cases p with
  | nil => exact absurd rfl hne
  | cons d p => exact hp

/-- Only `//` begins with a slash, or is changed to something that does. -/
theorem Edit.slash (h : Edit symbols s fragment u) :
    (s = "//".toList ++ u ∧ fragment = "/".toList)
      ∨ (s.head? ≠ some '/' ∧ ∀ o, (fragment ++ o).head? ≠ some '/') := by
  obtain ⟨p, hp, hpre, ⟨-, hf, hs⟩ | ⟨e, he, rfl, hf⟩⟩ := h.pattern
  · exact Or.inl ⟨hs, hf⟩
  · refine Or.inr ⟨?_, fun o => ?_⟩
    · refine head_ne_of_front (patterns_plain _ hp).2 ?_ hpre
      refine (patterns_heads _ hp).1.resolve_left fun hslash => ?_
      exact edits_ne_slashes e he hslash
    · obtain ⟨hne, hhead⟩ := edits_heads e he
      exact head_ne_of_front hne hhead (hf.trans (List.prefix_append _ _))

/-- Of the slashes half are left at least. -/
theorem Rewrites.count {ps : List piece_t} (h : Rewrites symbols ps out) (hps : ps = lex s) :
    slashes s ≤ 2 * slashes out
      ∧ slashes out ≤ slashes s := by
  induction h generalizing s with
  | nil =>
      have hs := text_lex s
      rw [← hps] at hs
      rw [← hs]
      exact ⟨le_rfl, le_rfl⟩
  | @copy p ps out _ ih =>
      cases s with
      | nil => exact absurd hps (List.cons_ne_nil _ _)
      | cons c s =>
          obtain ⟨t, u, htext, rfl⟩ := first_spec c s
          rw [lex_cons htext, List.cons_eq_cons] at hps
          obtain ⟨rfl, hps⟩ := hps
          have hbehind := ih hps
          rw [htext, List.cons_append, slashes,
            slashes]
          by_cases hc : c = '/'
          · -- a slash is a piece of its own
            subst hc
            have ht : t = [] := List.tail_eq_of_cons_eq htext.symm
            rw [if_pos rfl, if_pos rfl, ht, List.nil_append, List.nil_append]
            omega
          · rw [if_neg hc, if_neg hc]
            exact ⟨Nat.zero_le _, le_rfl⟩
  | @change ps ps' fragment out hchange _ ih =>
      rw [hps] at hchange
      obtain ⟨-, u, -, hps', hedit⟩ := hchange.edit
      have hbehind := ih hps'
      rcases hedit.slash with ⟨rfl, rfl⟩ | ⟨hs, hf⟩
      · have htwo : slashes ("//".toList ++ u)
            = slashes u + 2 := rfl
        have hone : slashes ("/".toList ++ out)
            = slashes out + 1 := rfl
        omega
      · rw [slashes_eq_zero hs, slashes_eq_zero (hf out)]
        exact ⟨Nat.zero_le _, le_rfl⟩

/-! ## Text that is taken over -/

/-- A text that ends with a quote, with a parenthesis or with the expression. -/
def Sealed (t v : List Char) : Prop :=
  ∀ c, t.getLast? = some c → is_quote c = true ∨ c = ')' ∨ v = []

theorem kept_sealed {t : List Char} (h : t = [] ∨ "len(".toList <+: s ∧ ∃ t₀, t = t₀ ++ [')'])
    (v : List Char) : Sealed t v := by
  intro c hc
  rcases h with rfl | ⟨-, t₀, rfl⟩
  · exact absurd hc (by simp)
  · rw [List.getLast?_concat] at hc
    exact Or.inr (Or.inl (Option.some.inj hc).symm)

/-- No word reaches beyond such a text. -/
theorem Sealed.inside {t p : List Char} (h : Sealed t v) (ht : t ≠ []) (hp : p ∈ patterns)
    (hpre : p <+: t ++ v) : p <+: t := by
  obtain ⟨t₀, d, rfl⟩ : ∃ t₀ d, t = t₀ ++ [d] := ⟨_, _, (List.dropLast_append_getLast ht).symm⟩
  rcases List.prefix_or_prefix_of_prefix hpre (List.prefix_append (t₀ ++ [d]) v) with hin | hout
  · exact hin
  · have hmem : d ∈ p := hout.subset (List.mem_append_right _ (List.mem_singleton_self d))
    obtain ⟨hquote, hparen⟩ := (patterns_plain p hp).1 d hmem
    rcases h d List.getLast?_concat with hq | rfl | rfl
    · rw [hquote] at hq
      exact absurd hq Bool.false_ne_true
    · exact absurd rfl hparen
    · rwa [List.append_nil] at hpre

/-- If the whole text is written as it stands, nothing has been changed at its front. -/
theorem Sealed.unchanged {t o : List Char} (h : Sealed t v) (ht : t ≠ []) (ho : v = [] → o = []) :
    ¬Changed symbols (t ++ v) (t ++ o) := by
  rintro ⟨fragment, ps, o', hchange, hwritten, hbehind⟩
  obtain ⟨-, u', -, hps, hedit⟩ := hchange.edit
  obtain ⟨p, hp, hpre, hcase⟩ := hedit.pattern
  have hin := (h.inside ht hp hpre).trans (List.prefix_append t o)
  rcases hcase with ⟨-, rfl, hs⟩ | ⟨e, he, rfl, hf⟩
  · -- a slash is missing
    have hcount := (hbehind.count hps).2
    have hsame : slashes (t ++ o) = slashes (t ++ v) := by
      by_cases hv : v = []
      · rw [hv, ho hv]
      · refine slashes_append ⟨t.getLast ht, List.getLast_mem ht, ?_⟩ o v
        rintro hslash
        rcases h '/' (by rw [List.getLast?_eq_some_getLast ht, hslash]) with hq | hparen | hnil
        · exact absurd hq (by decide)
        · exact absurd hparen (by decide)
        · exact hv hnil
    have hone : slashes ("/".toList ++ o') = slashes o' + 1 := rfl
    have htwo : slashes ("//".toList ++ u') = slashes u' + 2 := rfl
    rw [hwritten, hs, hone, htwo] at hsame
    omega
  · have hwritten' : e.2 <+: t ++ o := hwritten ▸ hf.trans (List.prefix_append _ _)
    exact ((edits_apart e (List.mem_append_left _ he)).1).absurd
      ((List.take_prefix _ _).trans hin) hwritten'

/-- Such a text leads from one place to another. -/
theorem taken_over {t : List Char} (h : Sealed t v) (htext : r ++ u = t ++ v) :
    ∃ r' u', r' ++ u' = v ∧ (Rest r u → Rest r' u')
      ∧ (∀ x : List Char, x.length ≤ v.length → (x ∈ starts u ↔ x ∈ starts u'))
      ∧ ∀ o, (v = [] → o = []) → (Out symbols r u (t ++ o) ↔ Out symbols r' u' o) := by
  induction t generalizing r u with
  | nil => exact ⟨r, u, htext, id, fun x _ => Iff.rfl, fun o _ => Iff.rfl⟩
  | cons c t ih =>
      have hcons : r ++ u = c :: (t ++ v) := htext
      obtain ⟨r₁, u₁, hnext⟩ := exists_next hcons
      have htext₁ : r₁ ++ u₁ = t ++ v := List.tail_eq_of_cons_eq (hnext.text.symm.trans hcons)
      have hsealed : Sealed t v := by
        intro d hd
        refine h d ?_
        rw [List.getLast?_cons, hd]
        rfl
      obtain ⟨r', u', hv, hrest, hstarts, hout⟩ := ih hsealed htext₁
      refine ⟨r', u', hv, fun hr => hrest (hnext.rest hr), fun x hx => ?_, fun o ho => ?_⟩
      · rw [hnext.mem_starts, hstarts x hx]
        rw [htext₁, List.length_append]
        exact hx.trans (Nat.le_add_left _ _)
      · rw [List.cons_append, ← hout o ho]
        refine hnext.out_iff fun hr => ?_
        rw [hr, List.nil_append] at htext
        rw [htext]
        exact h.unchanged (List.cons_ne_nil c t) ho

/-! ## What the loop writes -/

theorem scan_nil (fuel : ℕ) (prev : Char) (quote : Option Char) :
    scan symbols fuel prev quote [] = [] ∧ sites_from symbols fuel prev quote [] = [] := by
  cases fuel <;> exact ⟨rfl, rfl⟩

/-- Up to the end of what the loop takes for a string nothing is changed. -/
theorem scan_quoted (symbols : List symbol_t) (q : Char) (fuel : ℕ) (prev : Char)
    (s : List Char) (hfuel : s.length ≤ fuel) : ∃ t v prev', s = t ++ v ∧ (∀ c, Sealed (c :: t) v)
      ∧ scan symbols fuel prev (some q) s = t ++ scan symbols (fuel - t.length) prev' none v
      ∧ sites_from symbols fuel prev (some q) s
        = sites_from symbols (fuel - t.length) prev' none v := by
  induction fuel generalizing prev s with
  | zero =>
      obtain rfl := List.length_eq_zero_iff.mp (Nat.le_zero.mp hfuel)
      exact ⟨[], [], prev, rfl, fun _ _ _ => Or.inr (Or.inr rfl), rfl, rfl⟩
  | succ fuel ih =>
      cases s with
      | nil => exact ⟨[], [], prev, rfl, fun _ _ _ => Or.inr (Or.inr rfl), rfl, rfl⟩
      | cons c s =>
          have hinside : ∃ t v prev', c :: s = t ++ v ∧ (∀ c, Sealed (c :: t) v)
              ∧ c :: scan symbols fuel c (some q) s
                = t ++ scan symbols (fuel + 1 - t.length) prev' none v
              ∧ sites_from symbols fuel c (some q) s
                = sites_from symbols (fuel + 1 - t.length) prev' none v := by
            obtain ⟨t, v, prev', rfl, hsealed, hscan, hsites⟩ :=
              ih c s (Nat.le_of_succ_le_succ hfuel)
            refine ⟨c :: t, v, prev', rfl, fun d x hx => hsealed c x ?_, ?_, ?_⟩
            · rwa [List.getLast?_cons_cons] at hx
            · rw [hscan, List.length_cons, Nat.succ_sub_succ]
              rfl
            · rw [hsites, List.length_cons, Nat.succ_sub_succ]
          rw [scan, sites_from]
          by_cases hquote : is_quote c = true ∧ prev ≠ '\\'
          · rw [if_pos hquote, if_pos hquote, toggle]
            by_cases hq : q = c
            · rw [if_pos hq]
              refine ⟨[c], s, c, rfl, fun d x hx => ?_, rfl, rfl⟩
              obtain rfl := Option.some.inj hx
              exact Or.inl hquote.1
            · rw [if_neg hq]
              exact hinside
          · rw [if_neg hquote, if_neg hquote, Option.isSome_some, if_pos rfl, if_pos rfl]
            exact hinside

theorem drops_cons : ∀ d ∈ drops, d.1 ∈ patterns
    ∧ ∃ c x y, d.1 = c :: x :: y ∧ d.2 = [x] ∧ x ≠ '/' := by
  intro d hd
  rcases List.mem_cons.mp hd with rfl | hd
  · exact ⟨calls_mem.1, 's', 'u', "m(".toList, by decide, rfl, by decide⟩
  · obtain rfl := List.mem_singleton.mp hd
    exact ⟨calls_mem.2.1, 'l', 'e', "n(".toList, by decide, rfl, by decide⟩

/-- What stands in no word's first place is written as it stands. -/
theorem scan_head (hc : ∀ p ∈ patterns, p.head? ≠ some c) (fuel : ℕ) (prev : Char)
    (s : List Char) : [c] <+: scan symbols (fuel + 1) prev none (c :: s) := by
  have hno : ∀ p ∈ patterns, ¬p <+: c :: s := by
    intro p hp hpre
    exact head_ne_of_front (patterns_plain p hp).2 (hc p hp) hpre rfl
  rw [scan]
  split
  · exact List.prefix_append [c] _
  · rw [Option.isSome_none, if_neg Bool.false_ne_true]
    rcases rewrite_spec symbols (c :: s) with ⟨hnone, -⟩ | ⟨d, hd, -, hpre, -⟩
      | ⟨f, t, u, n, -, -, -, hedit, -⟩
    · rw [hnone]
      exact List.prefix_append [c] _
    · exact absurd hpre (hno _ (drops_cons d hd).1)
    · obtain ⟨p, hp, hpre, -⟩ := hedit.pattern
      exact absurd hpre (hno p hp)

theorem slash_word : (⟨"//", .any, "/"⟩ : word_t) ∈ words := by
  decide

theorem slash_not_call {t : List Char} (hs : s = "//".toList ++ (t ++ u)) :
    ¬("len(".toList <+: s ∧ ∃ t₀, t = t₀ ++ [')']) := by
  rintro ⟨hpre, -⟩
  have hslash : "//".toList <+: s := hs ▸ List.prefix_append _ _
  exact absurd (same_pattern calls_mem.2.1 (word_mem slash_word) hpre hslash) (by decide)

/-- Outside of strings half of the slashes are left. -/
theorem scan_slashes (symbols : List symbol_t) (fuel : ℕ) (prev : Char) (s : List Char) :
    2 * slashes (scan symbols fuel prev none s) ≤ slashes s + 1 := by
  induction fuel generalizing prev s with
  | zero => exact Nat.zero_le _
  | succ fuel ih =>
      cases s with
      | nil => exact Nat.zero_le _
      | cons c s =>
          rw [scan]
          by_cases hquote : is_quote c = true ∧ prev ≠ '\\'
          · rw [if_pos hquote, slashes_eq_zero]
            · exact Nat.zero_le _
            · intro hc
              rw [Option.some.inj hc] at hquote
              exact absurd hquote.1 (by decide)
          · rw [if_neg hquote, Option.isSome_none, if_neg Bool.false_ne_true]
            rcases rewrite_spec symbols (c :: s) with ⟨hnone, hno⟩ | ⟨d, hd, hdrop, hpre, -⟩
              | ⟨f, t, u, n, hrw, -, hn, hedit, -, hkept⟩
            · rw [hnone]
              dsimp only
              rw [slashes, slashes]
              by_cases hc : c = '/'
              · -- no second slash, as the two would have been found
                have hs : slashes s = 0 := by
                  refine slashes_eq_zero fun hhead => ?_
                  obtain ⟨x, rfl⟩ : ∃ x, s = '/' :: x := by
                    cases s with
                    | nil => exact absurd hhead (by simp)
                    | cons d x => exact ⟨x, by rw [Option.some.inj hhead]⟩
                  rw [hc] at hno
                  exact hno _ x (Edit.word slash_word rfl)
                have hbehind := ih c s
                rw [if_pos hc, if_pos hc]
                omega
              · rw [if_neg hc, if_neg hc]
                exact Nat.zero_le _
            · rw [hdrop]
              dsimp only
              obtain ⟨-, c', x, y, heq, -, hx⟩ := drops_cons d hd
              rw [heq, List.cons_prefix_cons] at hpre
              have hs : slashes s = 0 := slashes_eq_zero
                (head_ne_of_front (List.cons_ne_nil x y) (fun h => hx (Option.some.inj h)) hpre.2)
              have hbehind : 2 * slashes (scan symbols fuel c none s) ≤ slashes s + 1 := ih c s
              have hnone : slashes ([] ++ scan symbols fuel c none s) = 0 := by
                rw [List.nil_append]
                omega
              exact (Nat.mul_le_mul_left 2 hnone.le).trans (Nat.zero_le _)
            · rw [hrw]
              dsimp only
              rw [hn]
              rcases hedit.slash with ⟨hs, rfl⟩ | ⟨hs, hf⟩
              · obtain rfl := hkept.resolve_right (slash_not_call hs)
                have hbehind := ih ((c :: s).getD (n - 1) c) u
                have htwo : slashes (c :: s) = slashes u + 2 := by rw [hs]; rfl
                have hone : ∀ o, slashes ("/".toList ++ [] ++ o) = slashes o + 1 := fun _ => rfl
                rw [htwo, hone]
                omega
              · rw [List.append_assoc, slashes_eq_zero (hf _)]
                exact Nat.zero_le _

/-! ## Both ways -/

/-- A slash of two is written: it does not matter which one of them was the change. -/
theorem slash_moved {fuel : ℕ} {prev : Char} (h : Out symbols [] ('/' :: v)
    (scan symbols fuel prev none v)) : Out symbols [] v (scan symbols fuel prev none v) := by
  have hscan := scan_slashes symbols fuel prev v
  have hfirst : (first '/' ([] ++ v)).text = ['/'] := rfl
  rcases h.next (Next.start hfirst) with ⟨o, ho, hrest⟩
    | ⟨-, fragment, ps, o, hchange, hwritten, ho⟩
  · obtain ⟨o', rfl, hrest⟩ := hrest
    have hcount := (hrest.count rfl).1
    rw [ho, slashes, if_pos rfl] at hscan
    omega
  · obtain ⟨-, w, -, rfl, hedit⟩ := hchange.edit
    rcases hedit.slash with ⟨hs, rfl⟩ | ⟨hs, -⟩
    · obtain rfl : v = '/' :: w := List.tail_eq_of_cons_eq hs
      rw [hwritten]
      exact (Next.start (t := []) rfl).written ⟨o, rfl, ho⟩
    · exact absurd rfl hs

/-- The loop finds its words in what is in front of it. -/
theorem sites_length (fuel : ℕ) (prev : Char) (quote : Option Char) (s : List Char) :
    ∀ x ∈ sites_from symbols fuel prev quote s, x.length ≤ s.length := by
  induction fuel generalizing prev quote s with
  | zero => exact fun x hx => absurd hx List.not_mem_nil
  | succ fuel ih =>
      cases s with
      | nil => exact fun x hx => absurd hx List.not_mem_nil
      | cons c s =>
          have hlater : ∀ prev quote, ∀ x ∈ sites_from symbols fuel prev quote s,
              x.length ≤ (c :: s).length := fun prev quote x hx =>
            (ih prev quote s x hx).trans (Nat.le_succ _)
          rw [sites_from]
          split
          · exact hlater _ _
          · split
            · exact hlater _ _
            · split
              · intro x hx
                rcases List.mem_cons.mp hx with rfl | hx
                · exact le_rfl
                · refine (ih _ _ _ x hx).trans ?_
                  rw [List.length_drop]
                  exact Nat.sub_le _ _
              · exact hlater _ _

/-- What is found behind a text depends on the places there alone. -/
theorem whole_behind {S : List (List Char)} (hS : ∀ x ∈ S, x.length ≤ v.length)
    (h : ∀ x : List Char, x.length ≤ v.length → (x ∈ starts u ↔ x ∈ starts u')) :
    (∀ x ∈ S, Whole symbols u x) ↔ ∀ x ∈ S, Whole symbols u' x :=
  forall₂_congr fun x hx => and_congr_left' (h x (hS x hx))

theorem Whole.nothing_left (h : Whole symbols u (r ++ u)) : r = [] := by
  have hlen := starts_length h.1
  rw [List.length_append] at hlen
  exact List.length_eq_zero_iff.mp (by omega)

/-- The words that were changed are those that the loop changes. -/
theorem Changed.whole {o : List Char} (h : Changed symbols s (fragment ++ o))
    (hedit : Edit symbols s fragment u) (hclosed : Closed s) :
    Whole symbols s s ∧ Out symbols [] u o := by
  obtain ⟨f', ps, o', hchange, hwritten, hps⟩ := h
  obtain ⟨-, u', -, rfl, hedit'⟩ := hchange.edit
  obtain ⟨rfl, rfl⟩ := hedit'.unique hedit
  obtain rfl := List.append_cancel_left hwritten
  exact ⟨⟨mem_starts_self s, ⟨_, _, hchange⟩, hclosed⟩, o, rfl, hps⟩

/-- Two slashes of which one is written: they are no part of a literal. -/
theorem slashes_whole {fuel : ℕ} {prev : Char} (hrest : Rest r u) (hs : r ++ u = '/' :: '/' :: v)
    (hclosed : Closed ('/' :: '/' :: v))
    (hout : Out symbols r u ('/' :: scan symbols fuel prev none v)) :
    r = [] ∧ Whole symbols u ('/' :: '/' :: v)
      ∧ Out symbols [] v (scan symbols fuel prev none v) := by
  have hslash : ∀ w : List Char, (first '/' ([] ++ w)).text = ['/'] := fun _ => rfl
  have hedit : Edit symbols ('/' :: '/' :: v) ['/'] v := Edit.word slash_word rfl
  cases r with
  | nil =>
      rw [List.nil_append] at hs
      subst hs
      refine ⟨rfl, ?_⟩
      rcases hout.next (Next.start (hslash _)) with ⟨o, ho, hcopied⟩ | ⟨-, hchanged⟩
      · obtain rfl := List.tail_eq_of_cons_eq ho
        refine ⟨⟨mem_starts_self _, ⟨['/'], lex v, ?_⟩, hclosed⟩, slash_moved hcopied⟩
        have hsign : ∀ w : List Char, lex ('/' :: w) = .sign '/' :: lex w :=
          fun w => lex_cons (hslash w)
        have hlex : lex ('/' :: '/' :: v) = lex "//".toList ++ lex v := by
          rw [hsign, hsign]
          rfl
        rw [hlex]
        exact Changes.word slash_word
      · have hchanged' : Changed symbols ('/' :: '/' :: v)
            (['/'] ++ scan symbols fuel prev none v) := hchanged
        exact hchanged'.whole hedit hclosed
  | cons c r =>
      -- a literal would have kept both
      obtain ⟨o, hwritten, ho⟩ := hout
      have hsame : slashes (c :: r ++ o) = slashes (c :: r ++ u) := by
        rcases hrest with hlast | rfl
        · refine slashes_append ⟨_, List.getLast_mem (List.cons_ne_nil c r), ?_⟩ o u
          intro hslash
          exact hlast (by rw [List.getLast?_eq_some_getLast (List.cons_ne_nil c r), hslash])
        · have hnil : o = [] := Out.nil ⟨o, rfl, ho⟩
          rw [hnil]
      have hscan := scan_slashes symbols fuel prev v
      rw [← hwritten, hs] at hsame
      simp only [slashes, if_true] at hsame
      omega

/-- Where the loop changes something, a whole word has been changed if the text written is to be
right, and the rest of the text is right. -/
theorem edit_iff {t : List Char} {fuel : ℕ} {prev : Char} (hrest : Rest r u)
    (hs : r ++ u = s) (hedit : Edit symbols s fragment (t ++ v)) (hclosed : Closed s)
    (hkept : t = [] ∨ "len(".toList <+: s ∧ ∃ t₀, t = t₀ ++ [')']) :
    Out symbols r u (fragment ++ (t ++ scan symbols fuel prev none v))
      ↔ r = [] ∧ Whole symbols u s
        ∧ Out symbols [] (t ++ v) (t ++ scan symbols fuel prev none v) := by
  constructor
  · intro hout
    obtain ⟨p, hp, hpre, ⟨-, rfl, hslashes⟩ | ⟨e, he, rfl, hf⟩⟩ := hedit.pattern
    · obtain rfl := hkept.resolve_right (slash_not_call hslashes)
      subst hslashes
      exact slashes_whole hrest hs hclosed hout
    · rw [← hs] at hpre
      obtain ⟨rfl, hchanged⟩ := edit_forced (List.mem_append_left _ he) hpre
        (hf.trans (List.prefix_append _ _)) hout
      rw [List.nil_append] at hs
      subst hs
      exact ⟨rfl, hchanged.whole hedit hclosed⟩
  · rintro ⟨rfl, ⟨-, ⟨f', ps, hchange⟩, -⟩, o, ho, hps⟩
    rw [List.nil_append] at hs ho
    subst hs
    obtain ⟨-, u', -, rfl, hedit'⟩ := hchange.edit
    obtain ⟨rfl, rfl⟩ := hedit'.unique hedit
    rw [← ho] at hps
    exact ⟨_, rfl, Rewrites.change hchange hps⟩

/-- A letter that is dropped makes the text written a wrong one. -/
theorem drop_wrong {d : List Char × List Char} {fuel : ℕ} {prev : Char} (hd : d ∈ drops)
    (hs : r ++ u = c :: s) (hpre : d.1 <+: c :: s) :
    ¬Out symbols r u (scan symbols (fuel + 1) prev none s) := by
  intro hout
  obtain ⟨hp, c', x, y, heq, hx, hne⟩ := drops_cons d hd
  have hhead : ∀ p ∈ patterns, p.head? ≠ some x := by
    intro p hp
    have hne := (patterns_heads p hp).2 d hd
    rwa [hx] at hne
  have hfront := hpre
  rw [heq, List.cons_prefix_cons] at hfront
  obtain ⟨-, z, rfl⟩ := hfront
  have hwritten : d.2 <+: scan symbols (fuel + 1) prev none (x :: y ++ z) := by
    rw [hx]
    exact scan_head hhead fuel prev (y ++ z)
  obtain ⟨rfl, f, ps, o, hchange, hsame, -⟩ := edit_forced (List.mem_append_right _ hd)
    (hs ▸ hpre) hwritten hout
  obtain ⟨-, u', -, rfl, hedit⟩ := hchange.edit
  obtain ⟨p, hp', hpre', hcase⟩ := hedit.pattern
  rw [List.nil_append] at hs
  have hsamep := same_pattern hp' hp hpre' (hs ▸ hpre)
  rcases hcase with ⟨hslash, -⟩ | ⟨e, he, rfl, hf⟩
  · have htwo : "//".toList = ['/', '/'] := by decide
    rw [hslash, heq, htwo, List.cons_eq_cons, List.cons_eq_cons] at hsamep
    exact hne hsamep.2.1.symm
  · exact (edits_drops_apart e he d hd hsamep).absurd
      (hsame ▸ hf.trans (List.prefix_append _ _)) hwritten

/-- The text that the loop writes is one with nothing but whole words changed if and only if it
finds nothing but whole words. -/
theorem scan_iff (fuel : ℕ) (prev : Char) (r u : List Char) (hrest : Rest r u)
    (hfuel : (r ++ u).length ≤ fuel) : Out symbols r u (scan symbols fuel prev none (r ++ u))
      ↔ ∀ x ∈ sites_from symbols fuel prev none (r ++ u), Whole symbols u x := by
  induction fuel using Nat.strong_induction_on generalizing prev r u with
  | _ fuel ih =>
      cases hs : r ++ u with
      | nil =>
          obtain ⟨rfl, rfl⟩ := List.append_eq_nil_iff.mp hs
          rw [(scan_nil fuel prev none).1, (scan_nil fuel prev none).2]
          exact iff_of_true ⟨[], rfl, Rewrites.nil⟩ fun x hx => absurd hx List.not_mem_nil
      | cons c s =>
          rw [hs, List.length_cons] at hfuel
          cases fuel with
          | zero => exact absurd hfuel (Nat.not_succ_le_zero _)
          | succ fuel =>
              have hlen := Nat.le_of_succ_le_succ hfuel
              -- a text that is taken over, and the rest of the loop
              have hover : ∀ {t v : List Char} {fuel' : ℕ} {prev' : Char} {r u : List Char},
                  Rest r u → Sealed t v → r ++ u = t ++ v → fuel' < fuel + 1 →
                  v.length ≤ fuel' →
                  (Out symbols r u (t ++ scan symbols fuel' prev' none v)
                    ↔ ∀ x ∈ sites_from symbols fuel' prev' none v, Whole symbols u x) := by
                intro t v fuel' prev' r u hrest hsealed htext hless hv
                obtain ⟨r', u', rfl, hrest', hstarts, hout⟩ := taken_over hsealed htext
                rw [hout, ih fuel' hless prev' r' u' (hrest' hrest) hv]
                · exact (whole_behind (sites_length _ _ _ _) hstarts).symm
                · intro hnil
                  rw [hnil, (scan_nil _ _ _).1]
              rw [scan, sites_from]
              by_cases hquote : is_quote c = true ∧ prev ≠ '\\'
              · rw [if_pos hquote, if_pos hquote, toggle]
                obtain ⟨t, v, prev', rfl, hsealed, hscan, hsites⟩ :=
                  scan_quoted symbols c fuel c s hlen
                rw [hscan, hsites]
                rw [List.length_append] at hlen
                exact hover hrest (hsealed c) hs (by omega) (by omega)
              · rw [if_neg hquote, if_neg hquote, Option.isSome_none, if_neg Bool.false_ne_true,
                  if_neg Bool.false_ne_true]
                rcases rewrite_spec symbols (c :: s) with ⟨hnone, hno⟩
                  | ⟨d, hd, hdrop, hpre, hopen⟩ | ⟨f, t, v, n, hrw, -, hn, hedit, hclosed, hkept⟩
                · rw [hnone]
                  obtain ⟨r', u', hnext⟩ := exists_next hs
                  obtain rfl : s = r' ++ u' := List.tail_eq_of_cons_eq (hs.symm.trans hnext.text)
                  dsimp only
                  rw [hnext.out_iff, ih fuel (Nat.lt_succ_self _) c r' u' (hnext.rest hrest) hlen]
                  · exact (whole_behind (sites_length _ _ _ _) fun x hx =>
                      hnext.mem_starts hx).symm
                  · rintro rfl ⟨f, ps, -, hchange, -, -⟩
                    rw [List.nil_append] at hs
                    rw [hs] at hchange
                    obtain ⟨-, u', -, -, hedit⟩ := hchange.edit
                    exact hno f u' hedit
                · rw [hdrop]
                  refine iff_of_false ?_ fun hall => hopen (hall _ List.mem_cons_self).2.2
                  cases fuel with
                  | zero =>
                      obtain ⟨-, c', x, y, heq, -⟩ := drops_cons d hd
                      have hle := hpre.length_le
                      rw [heq, List.length_cons, List.length_cons, List.length_cons] at hle
                      omega
                  | succ fuel => exact drop_wrong hd hs hpre
                · rw [hrw]
                  dsimp only
                  rw [hn, List.append_assoc, edit_iff hrest hs hedit hclosed hkept,
                    List.forall_mem_cons, and_iff_right_of_imp]
                  · refine and_congr_right fun hwhole => ?_
                    obtain rfl := Whole.nothing_left (hs ▸ hwhole)
                    obtain rfl : u = c :: s := hs
                    obtain ⟨-, ⟨f', ps, hchange⟩, -⟩ := hwhole
                    obtain ⟨front, u', hfront, -, hedit'⟩ := hchange.edit
                    obtain ⟨rfl, rfl⟩ := hedit'.unique hedit
                    have hshort := hedit.shorter
                    rw [List.length_append, List.length_cons] at hshort
                    have hbegin : Rest [] (t ++ v) := Or.inl (by simp)
                    rw [hover hbegin (kept_sealed hkept v) rfl (Nat.lt_succ_self _) (by omega)]
                    refine (whole_behind (sites_length _ _ _ _) fun x hx => ?_).symm
                    refine mem_starts_behind hfront (hx.trans ?_)
                    rw [List.length_append]
                    exact Nat.le_add_left _ _
                  · rintro ⟨hwhole, -⟩
                    exact Whole.nothing_left (hs ▸ hwhole)

/-! ## The whole expression -/

/-- The length of what stands for the text here, and of that text. -/
def written (symbols : List symbol_t) (s : List Char) : ℕ :=
  ((rewrite symbols s).getD ([], 0)).1.length

def taken (symbols : List symbol_t) (s : List Char) : ℕ := ((rewrite symbols s).getD ([], 0)).2

/-- The expression and all that is added to it do not find room in the buffer. -/
def NoRoom (symbols : List symbol_t) (expr : List Char) : Prop :=
  sizeof_tmp + ((sites symbols expr).map (taken symbols)).sum
    ≤ expr.length + ((sites symbols expr).map (written symbols)).sum

theorem taken_le (symbols : List symbol_t) (s : List Char) : taken symbols s ≤ s.length := by
  rw [taken]
  rcases rewrite_spec symbols s with ⟨hnone, -⟩ | ⟨d, hd, hdrop, hpre, -⟩
    | ⟨f, t, u, n, hrw, hn, -⟩
  · rw [hnone]
    exact Nat.zero_le _
  · obtain ⟨-, c, x, y, heq, -⟩ := drops_cons d hd
    have hle := hpre.length_le
    rw [heq, List.length_cons] at hle
    rw [hdrop]
    exact (Nat.le_add_left _ _).trans hle
  · rw [hrw]
    exact hn

theorem rewrite_pos {n : ℕ} (h : rewrite symbols s = some (out, n)) : 1 ≤ n := by
  rcases rewrite_spec symbols s with ⟨hnone, -⟩ | ⟨d, hd, hdrop, hpre, -⟩
    | ⟨f, t, u, m, hrw, hm, hdrop, hedit, -⟩
  · rw [hnone] at h
    exact absurd h (by simp)
  · rw [hdrop] at h
    exact (congrArg Prod.snd (Option.some.inj h)).le
  · rw [hrw] at h
    obtain rfl : m = n := congrArg Prod.snd (Option.some.inj h)
    have hshort := hedit.shorter
    rw [List.length_append, ← hdrop, List.length_drop] at hshort
    omega

/-- A text that stays as it is has nothing changed in it. -/
theorem unchanged_rewrites (symbols : List symbol_t) (expr : List Char) :
    Respects symbols expr expr := by
  rw [Respects]
  conv_rhs => rw [← text_lex expr]
  induction lex expr with
  | nil => exact Rewrites.nil
  | cons p ps ih =>
      rw [text_cons]
      exact Rewrites.copy ih

theorem scan_length (symbols : List symbol_t) (fuel : ℕ) (prev : Char) (quote : Option Char)
    (s : List Char) (hfuel : s.length ≤ fuel) : (scan symbols fuel prev quote s).length
      + ((sites_from symbols fuel prev quote s).map (taken symbols)).sum
    = s.length + ((sites_from symbols fuel prev quote s).map (written symbols)).sum := by
  induction fuel generalizing prev quote s with
  | zero =>
      obtain rfl := List.length_eq_zero_iff.mp (Nat.le_zero.mp hfuel)
      rfl
  | succ fuel ih =>
      cases s with
      | nil => rfl
      | cons c s =>
          have hlen := Nat.le_of_succ_le_succ hfuel
          rw [scan, sites_from]
          split
          · have hlater := ih c (toggle quote c) s hlen
            rw [List.length_cons, List.length_cons]
            omega
          · split
            · have hlater := ih c quote s hlen
              rw [List.length_cons, List.length_cons]
              omega
            · cases hrw : rewrite symbols (c :: s) with
              | none =>
                  have hlater := ih c none s hlen
                  dsimp only
                  rw [List.length_cons, List.length_cons]
                  omega
              | some e =>
                  obtain ⟨f, n⟩ := e
                  have hn : n ≤ (c :: s).length := by
                    have hle := taken_le symbols (c :: s)
                    rwa [taken, hrw] at hle
                  have hone : 1 ≤ n := rewrite_pos hrw
                  rw [List.length_cons] at hn
                  have hlater := ih ((c :: s).getD (n - 1) c) none ((c :: s).drop n) (by
                    rw [List.length_drop, List.length_cons]
                    omega)
                  have hfront : taken symbols (c :: s) = n
                      ∧ written symbols (c :: s) = f.length := by
                    rw [taken, written, hrw]
                    exact ⟨rfl, rfl⟩
                  rw [List.length_drop, List.length_cons] at hlater
                  dsimp only
                  rw [List.map_cons, List.map_cons, List.sum_cons, List.sum_cons, hfront.1,
                    hfront.2, List.length_append, List.length_cons]
                  omega

end SysInC.PythontRewrite
