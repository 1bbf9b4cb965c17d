/-
`convert_shorthand_to_json` of `src/jsonview/jsonview.c` on texts that are JSON already.

The loop does not know of strings: an apostrophe becomes a quotation mark, and a word in front of a
colon is quoted, wherever they stand. In a JSON text both can only stand in a string, so a text is
kept exactly if none of its strings has them; otherwise there are more quotation marks than before.
-/
import SysInC.CString
import SysInC.JsonText

set_option autoImplicit false

namespace SysInC.JsonShorthand

open CString JsonText

/-! ## The source -/

def isspace (c : UInt8) : Bool := c == 32 || (9 ≤ c && c ≤ 13)

def isalnum (c : UInt8) : Bool :=
  (48 ≤ c && c ≤ 57) || (65 ≤ c && c ≤ 90) || (97 ≤ c && c ≤ 122)

/-- `isalnum(c) || c == '_' || c >= 128` -/
def is_word (c : UInt8) : Bool := isalnum c || c == 95 || 128 ≤ c

/-- `look < in_len && input[look] == ':'`, behind the white space. -/
def colon_follows (rest : List UInt8) : Bool := (rest.dropWhile isspace).head? == some 58

/-- The loop, from `input[i]` on, with so many turns at most. -/
def loop : ℕ → List UInt8 → List UInt8
  | 0, _ => []
  | _ + 1, [] => []
  | turns + 1, c :: cs =>
    if is_word c then
      let key := (c :: cs).takeWhile is_word
      let rest := (c :: cs).dropWhile is_word
      if colon_follows rest then
        [34] ++ key ++ [34] ++ loop turns (rest.dropWhile isspace)
      else key ++ loop turns rest
    else if c = 39 then 34 :: loop turns cs
    else c :: loop turns cs

/-- What is in `out` in front of its NUL. -/
def convert_shorthand_to_json (input : List UInt8) : List UInt8 :=
  let text := (text_of input).dropWhile isspace
  let is_object_wrapped := text.head? != some 123 && text.head? != some 91
  (if is_object_wrapped then [123] else []) ++ loop text.length text ++
    (if is_object_wrapped then [125] else [])

/-! ## What the loop changes -/

/-- No apostrophe, and no word in front of white space and a colon. -/
def clean : List UInt8 → Bool
  | [] => true
  | c :: cs => c != 39 && !(is_word c && colon_follows cs) && clean cs

theorem word_not_isspace {c : UInt8} (hc : is_word c = true) : isspace c = false := by
  by_contra hspace
  rw [Bool.not_eq_false] at hspace
  simp only [isspace, Bool.or_eq_true, beq_iff_eq, Bool.and_eq_true, decide_eq_true_eq] at hspace
  rcases hspace with rfl | ⟨h9, h13⟩
  · exact absurd hc (by decide)
  · have h95 : c ≠ 95 := by
      rintro rfl
      exact absurd h13 (by decide)
    simp only [is_word, isalnum, Bool.or_eq_true, beq_iff_eq, Bool.and_eq_true, decide_eq_true_eq,
      UInt8.le_iff_toNat_le, UInt8.reduceToNat, h95, or_false] at hc h13
    omega

theorem word_ne {c d : UInt8} (hc : is_word c = true) (hd : is_word d = false) : c ≠ d := by
  rintro rfl
  exact absurd hc (by rw [hd]; exact Bool.false_ne_true)

theorem colon_follows_cons {c : UInt8} (hspace : isspace c = false) (hcolon : c ≠ 58)
    (rest : List UInt8) : colon_follows (c :: rest) = false := by
  rw [colon_follows, List.dropWhile_cons_of_neg (by rw [hspace]; exact Bool.false_ne_true)]
  simpa using hcolon

theorem colon_follows_word {c : UInt8} (hc : is_word c = true) (rest : List UInt8) :
    colon_follows (c :: rest) = false :=
  colon_follows_cons (word_not_isspace hc) (word_ne hc (by decide)) rest

theorem clean_other {c : UInt8} (hword : is_word c = false) (hc : c ≠ 39) (rest : List UInt8) :
    clean (c :: rest) = clean rest := by
  simp [clean, hword, hc]

/-- A word counts by what is behind it. -/
theorem clean_word {c : UInt8} {w : List UInt8} (hw : ∀ d ∈ c :: w, is_word d = true)
    (rest : List UInt8) : clean (c :: w ++ rest) = (!colon_follows rest && clean rest) := by
  induction w generalizing c with
  | nil =>
    have hc := hw c (List.mem_singleton_self c)
    have hne : (c != 39) = true := bne_iff_ne.mpr (word_ne hc (by decide))
    simp [clean, hc, hne]
  | cons d w ih =>
    have hc := hw c List.mem_cons_self
    have hne : (c != 39) = true := bne_iff_ne.mpr (word_ne hc (by decide))
    have hrest : ∀ e ∈ d :: w, is_word e = true := fun e he => hw e (List.mem_cons_of_mem c he)
    have hfollows := colon_follows_word (hrest d List.mem_cons_self) (w ++ rest)
    have hclean := ih hrest
    simp only [List.cons_append] at hclean ⊢
    rw [clean, hclean, hfollows]
    simp [hne]

/-- White space and words hold no quotation mark. -/
theorem count_quote_eq_zero {w : List UInt8} (hw : 34 ∉ w) (rest : List UInt8) :
    (w ++ rest).count 34 = rest.count 34 := by
  rw [List.count_append, List.count_eq_zero.mpr hw, Nat.zero_add]

theorem count_dropWhile_isspace (l : List UInt8) :
    (l.dropWhile isspace).count 34 = l.count 34 := by
  have hspaces : (34 : UInt8) ∉ l.takeWhile isspace := by
    intro hmem
    exact absurd (List.all_eq_true.mp List.all_takeWhile 34 hmem) (by decide)
  calc (l.dropWhile isspace).count 34
      = (l.takeWhile isspace ++ l.dropWhile isspace).count 34 :=
        (count_quote_eq_zero hspaces _).symm
    _ = l.count 34 := by rw [List.takeWhile_append_dropWhile]

/-- A turn that starts with a word. -/
theorem loop_word (turns : ℕ) {c : UInt8} (hword : is_word c = true) (cs : List UInt8) :
    ∃ w rest, c :: cs = c :: w ++ rest ∧ (∀ d ∈ c :: w, is_word d = true) ∧
      rest.length ≤ cs.length ∧ loop (turns + 1) (c :: cs) =
        if colon_follows rest then [34] ++ (c :: w) ++ [34] ++ loop turns (rest.dropWhile isspace)
        else c :: w ++ loop turns rest := by
  refine ⟨cs.takeWhile is_word, cs.dropWhile is_word, ?_, ?_, ?_, ?_⟩
  · rw [List.cons_append, List.takeWhile_append_dropWhile]
  · rw [List.forall_mem_cons]
    exact ⟨hword, List.all_eq_true.mp List.all_takeWhile⟩
  · exact (List.dropWhile_sublist is_word).length_le
  · rw [loop, if_pos hword, List.takeWhile_cons_of_pos hword, List.dropWhile_cons_of_pos hword]

/-- **The loop.** It leaves a clean text alone, and gives any other one more quotation marks. -/
theorem loop_or {turns : ℕ} {l : List UInt8} (h : l.length ≤ turns) :
    clean l = true ∧ loop turns l = l ∨ clean l = false ∧ l.count 34 < (loop turns l).count 34 := by
  induction turns generalizing l with
  | zero =>
    obtain rfl := List.eq_nil_of_length_eq_zero (Nat.le_zero.mp h)
    exact Or.inl ⟨rfl, rfl⟩
  | succ turns ih =>
    have hle : ∀ l : List UInt8, l.length ≤ turns → l.count 34 ≤ (loop turns l).count 34 := by
      intro l hl
      rcases ih hl with ⟨-, hsame⟩ | ⟨-, hmore⟩
      · rw [hsame]
      · exact hmore.le
    cases l with
    | nil => exact Or.inl ⟨rfl, rfl⟩
    | cons c cs =>
      have hcs : cs.length ≤ turns := Nat.le_of_succ_le_succ h
      cases hword : is_word c with
      | true =>
        obtain ⟨w, rest, hsplit, hwords, hrest, hloop⟩ := loop_word turns hword cs
        have hquote : (34 : UInt8) ∉ c :: w := fun hmem => absurd (hwords 34 hmem) (by decide)
        have hlen : rest.length ≤ turns := hrest.trans hcs
        rw [hloop, hsplit, clean_word hwords, count_quote_eq_zero hquote]
        cases hfollows : colon_follows rest with
        | true =>
          right
          have hlook := hle (rest.dropWhile isspace)
            ((List.dropWhile_sublist isspace).length_le.trans hlen)
          rw [count_dropWhile_isspace] at hlook
          simp only [if_true, List.count_append, List.count_eq_zero.mpr hquote,
            List.count_singleton_self]
          exact ⟨rfl, by omega⟩
        | false =>
          rw [if_neg Bool.false_ne_true, count_quote_eq_zero hquote, List.append_cancel_left_eq]
          exact ih hlen
      | false =>
        rw [loop, if_neg (by rw [hword]; exact Bool.false_ne_true)]
        split
        · next hc =>
          subst hc
          have hmore := hle cs hcs
          right
          rw [List.count_cons_of_ne (by decide), List.count_cons_self]
          exact ⟨rfl, Nat.lt_succ_of_le hmore⟩
        · next hc =>
          rw [clean_other hword hc, List.cons_eq_cons, List.count_cons, List.count_cons]
          simpa using ih hcs

theorem clean_spaces {w : List UInt8} (hw : ∀ c ∈ w, isspace c = true) (rest : List UInt8) :
    clean (w ++ rest) = clean rest := by
  induction w with
  | nil => rfl
  | cons c w ih =>
    obtain ⟨hc, hmore⟩ := List.forall_mem_cons.mp hw
    have hword : is_word c = false := by
      by_contra h
      rw [Bool.not_eq_false] at h
      rw [word_not_isspace h] at hc
      exact Bool.false_ne_true hc
    have hne : c ≠ 39 := by
      rintro rfl
      exact absurd hc (by decide)
    rw [List.cons_append, clean_other hword hne, ih hmore]

theorem length_loop_le (turns : ℕ) (l : List UInt8) : (loop turns l).length ≤ 3 * l.length := by
  induction turns generalizing l with
  | zero => exact Nat.zero_le _
  | succ turns ih =>
    cases l with
    | nil => exact le_rfl
    | cons c cs =>
      cases hword : is_word c with
      | true =>
        obtain ⟨w, rest, hsplit, -, -, hloop⟩ := loop_word turns hword cs
        have hlook := ih (rest.dropWhile isspace)
        have hle := (List.dropWhile_sublist (l := rest) isspace).length_le
        have hrest := ih rest
        rw [hloop, hsplit]
        split
        · simp only [List.length_append, List.length_cons, List.length_nil]
          omega
        · simp only [List.length_append, List.length_cons]
          omega
      | false =>
        have hcs := ih cs
        rw [loop, if_neg (by rw [hword]; exact Bool.false_ne_true)]
        split
        · simp only [List.length_cons]
          omega
        · simp only [List.length_cons]
          omega

/-- The text and its NUL fit in the `in_len * 3 + 64` bytes of `out`, whatever the input. -/
theorem length_convert_lt (input : List UInt8) :
    (convert_shorthand_to_json input).length < (text_of input).length * 3 + 64 := by
  have hloop := length_loop_le ((text_of input).dropWhile isspace).length
    ((text_of input).dropWhile isspace)
  have hle := (List.dropWhile_sublist (l := text_of input) isspace).length_le
  have hmark : ∀ (wrapped : Bool) (c : UInt8), (if wrapped then [c] else []).length ≤ 1 := by
    intro wrapped c
    cases wrapped <;> simp
  simp only [convert_shorthand_to_json, List.length_append]
  have hfirst := hmark (((text_of input).dropWhile isspace).head? != some 123 &&
    ((text_of input).dropWhile isspace).head? != some 91) 123
  have hlast := hmark (((text_of input).dropWhile isspace).head? != some 123 &&
    ((text_of input).dropWhile isspace).head? != some 91) 125
  omega

/-- The same bytes but for white space. -/
def SameButSpace (a b : List UInt8) : Prop :=
  a.filter (fun c => !isspace c) = b.filter (fun c => !isspace c)

theorem sameButSpace_dropWhile (l : List UInt8) : SameButSpace (l.dropWhile isspace) l := by
  induction l with
  | nil => rfl
  | cons c l ih =>
    cases hc : isspace c with
    | true =>
      rw [List.dropWhile_cons_of_pos hc, SameButSpace, List.filter_cons_of_neg (by simp [hc])]
      exact ih
    | false => rw [List.dropWhile_cons_of_neg (by simp [hc]), SameButSpace]

theorem SameButSpace.count_quote {a b : List UInt8} (h : SameButSpace a b) :
    a.count 34 = b.count 34 := by
  have hfilter : ∀ l : List UInt8, (l.filter fun c => !isspace c).count 34 = l.count 34 :=
    fun l => List.count_filter (by decide)
  rw [← hfilter a, ← hfilter b, h]

/-- A text that starts with a brace or a bracket. -/
theorem convert_or {input : List UInt8} (hzero : 0 ∉ input) {c : UInt8} {cs : List UInt8}
    (hstart : input.dropWhile isspace = c :: cs) (hc : c = 123 ∨ c = 91) :
    clean input = true ∧ convert_shorthand_to_json input = input.dropWhile isspace ∨
      clean input = false ∧ ¬ SameButSpace (convert_shorthand_to_json input) input := by
  have htext : text_of input = input := by
    have h := text_of_append hzero []
    rw [List.append_nil] at h
    rw [h, text_of, List.takeWhile_nil, List.append_nil]
  have hconvert : convert_shorthand_to_json input = loop (c :: cs).length (c :: cs) := by
    simp only [convert_shorthand_to_json, htext, hstart, List.head?_cons]
    rcases hc with rfl | rfl
    · exact List.append_nil _
    · exact List.append_nil _
  have hclean : clean input = clean (c :: cs) := by
    rw [← hstart, ← clean_spaces (List.all_eq_true.mp List.all_takeWhile) (input.dropWhile isspace),
      List.takeWhile_append_dropWhile]
  rw [hconvert, hclean, hstart]
  rcases loop_or (le_refl (c :: cs).length) with hsame | ⟨hdirty, hmore⟩
  · exact Or.inl hsame
  · refine Or.inr ⟨hdirty, fun h => ?_⟩
    rw [h.count_quote, ← count_dropWhile_isspace input, hstart] at hmore
    exact lt_irrefl _ hmore

/-! ## JSON texts -/

/-- A byte of a number or a literal. -/
def Plain (c : UInt8) : Prop := c ≠ 0 ∧ c ≠ 39 ∧ c ≠ 58 ∧ isspace c = false

instance : DecidablePred Plain := fun c =>
  inferInstanceAs (Decidable (c ≠ 0 ∧ c ≠ 39 ∧ c ≠ 58 ∧ isspace c = false))

theorem colon_follows_spaces {w : List UInt8} (hw : ∀ c ∈ w, isspace c = true)
    (rest : List UInt8) : colon_follows (w ++ rest) = colon_follows rest := by
  rw [colon_follows, List.dropWhile_append_of_pos hw, colon_follows]

theorem ws_isspace {c : UInt8} (hc : is_ws c = true) : isspace c = true := by
  simp only [is_ws, Bool.or_eq_true, beq_iff_eq] at hc
  rcases hc with ((rfl | rfl) | rfl) | rfl <;> decide

theorem clean_ws (w : Ws) (rest : List UInt8) : clean (w.val ++ rest) = clean rest :=
  clean_spaces (fun c hc => ws_isspace (w.property c hc)) rest

theorem colon_follows_ws (w : Ws) (rest : List UInt8) :
    colon_follows (w.val ++ rest) = colon_follows rest :=
  colon_follows_spaces (fun c hc => ws_isspace (w.property c hc)) rest

/-- A number or a literal is kept unless a colon follows. -/
theorem clean_plain {w rest : List UInt8} (hw : ∀ c ∈ w, Plain c)
    (hrest : colon_follows rest = false) : clean (w ++ rest) = clean rest := by
  induction w with
  | nil => rfl
  | cons c w ih =>
    obtain ⟨⟨-, hne, -, -⟩, hmore⟩ := List.forall_mem_cons.mp hw
    have hfollows : colon_follows (w ++ rest) = false := by
      cases w with
      | nil => exact hrest
      | cons d w =>
        obtain ⟨-, -, hcolon, hspace⟩ := hmore d List.mem_cons_self
        exact colon_follows_cons hspace hcolon (w ++ rest)
    rw [List.cons_append, clean, hfollows, ih hmore, bne_iff_ne.mpr hne]
    simp

/-- What stands in a string stands there for itself. -/
theorem clean_in_string (s rest : List UInt8) :
    clean (s ++ 34 :: rest) = (clean s && clean rest) := by
  have hquote : clean (34 :: rest) = clean rest := clean_other (by decide) (by decide) rest
  have hfollows : ∀ s : List UInt8, colon_follows (s ++ 34 :: rest) = colon_follows s := by
    intro s
    induction s with
    | nil => exact colon_follows_cons (by decide) (by decide) rest
    | cons c s ih =>
      cases hspace : isspace c with
      | true =>
        rw [colon_follows] at ih ⊢
        rw [List.cons_append, List.dropWhile_cons_of_pos hspace, ih, colon_follows, colon_follows,
          List.dropWhile_cons_of_pos hspace]
      | false =>
        have hneg : ¬ isspace c = true := by rw [hspace]; exact Bool.false_ne_true
        rw [colon_follows, colon_follows, List.cons_append, List.dropWhile_cons_of_neg hneg,
          List.dropWhile_cons_of_neg hneg, List.head?_cons, List.head?_cons]
  induction s with
  | nil => rw [List.nil_append, hquote, clean, Bool.true_and]
  | cons c s ih =>
    simp only [List.cons_append, clean, hfollows s, ih, Bool.and_assoc]

theorem clean_quoted (s : List Piece) (rest : List UInt8) :
    clean (quoted s ++ rest) = (clean (contents s) && clean rest) := by
  rw [quoted, List.cons_append, clean_other (by decide) (by decide), List.append_assoc,
    List.singleton_append, clean_in_string]

theorem Digits.plain (ds : Digits) : ∀ c ∈ ds.text, Plain c := by
  intro c hc
  obtain ⟨d, -, rfl⟩ := List.mem_map.mp hc
  have hdigit : ∀ d : Fin 10, Plain (UInt8.ofNat (48 + d.val)) := by decide
  exact hdigit d

theorem Exponent.plain (e : Exponent) : ∀ c ∈ e.text, Plain c := by
  intro c hc
  obtain ⟨uppercase, sign, digits⟩ := e
  rcases List.mem_cons.mp hc with hc | hc
  · cases uppercase with
    | true => exact hc ▸ (by decide : Plain 69)
    | false => exact hc ▸ (by decide : Plain 101)
  · rcases List.mem_append.mp hc with hc | hc
    · cases sign with
      | none => cases hc
      | plus => exact List.mem_singleton.mp hc ▸ by decide
      | minus => exact List.mem_singleton.mp hc ▸ by decide
    · exact Digits.plain digits c hc

theorem Number.plain (n : Number) : ∀ c ∈ n.text, Plain c := by
  intro c hc
  obtain ⟨minus, int, frac, exp⟩ := n
  simp only [Number.text, List.mem_append] at hc
  rcases hc with hc | hc | hc | hc
  · cases minus with
    | true => exact List.mem_singleton.mp hc ▸ by decide
    | false => cases hc
  · exact Digits.plain int.val c hc
  · cases frac with
    | none => cases hc
    | some ds =>
      rcases List.mem_cons.mp hc with rfl | hc
      · decide
      · exact Digits.plain ds c hc
  · cases exp with
    | none => cases hc
    | some e => exact Exponent.plain e c hc

/-- A punctuation mark of JSON. -/
theorem clean_mark {c : UInt8} (hc : c ∈ [91, 93, 123, 125, 44, 58]) (rest : List UInt8) :
    clean (c :: rest) = clean rest := by
  have hall : ∀ c ∈ ([91, 93, 123, 125, 44, 58] : List UInt8), is_word c = false ∧ c ≠ 39 := by
    decide +kernel
  obtain ⟨hword, hne⟩ := hall c hc
  exact clean_other hword hne rest

def strings_clean (ss : List (List Piece)) : Bool := ss.all fun s => clean (contents s)

theorem strings_clean_append (ss ts : List (List Piece)) :
    strings_clean (ss ++ ts) = (strings_clean ss && strings_clean ts) := List.all_append

/-- A value in front of a comma or a closing mark. -/
theorem colon_follows_mark {c : UInt8} (hc : c ∈ [44, 93, 125]) (w : Ws) (rest : List UInt8) :
    colon_follows (w.val ++ c :: rest) = false := by
  have hall : ∀ c ∈ ([44, 93, 125] : List UInt8), isspace c = false ∧ c ≠ 58 := by
    decide +kernel
  obtain ⟨hspace, hcolon⟩ := hall c hc
  rw [colon_follows_ws, colon_follows_cons hspace hcolon]

mutual

/-- By induction on the derivation, whatever stands behind it. -/
theorem clean_value (v : Value) {rest : List UInt8} (hrest : colon_follows rest = false) :
    clean (v.text ++ rest) = (strings_clean v.strings && clean rest) := by
  cases v with
  | null =>
    rw [Value.text, clean_plain (by decide +kernel) hrest]
    rfl
  | true =>
    rw [Value.text, clean_plain (by decide +kernel) hrest]
    rfl
  | false =>
    rw [Value.text, clean_plain (by decide +kernel) hrest]
    rfl
  | number n =>
    rw [Value.text, clean_plain (Number.plain n) hrest]
    rfl
  | string s =>
    rw [Value.text, clean_quoted, Value.strings, strings_clean, List.all_cons, List.all_nil,
      Bool.and_true]
  | empty_array w =>
    rw [Value.text, List.cons_append, clean_mark (by decide), List.append_assoc, clean_ws]
    exact clean_mark (by decide) rest
  | array w es =>
    rw [Value.text, List.cons_append, clean_mark (by decide), List.append_assoc, clean_ws,
      clean_elements es, Value.strings]
  | empty_object w =>
    rw [Value.text, List.cons_append, clean_mark (by decide), List.append_assoc, clean_ws]
    exact clean_mark (by decide) rest
  | object w ms =>
    rw [Value.text, List.cons_append, clean_mark (by decide), List.append_assoc, clean_ws,
      clean_members ms, Value.strings]

theorem clean_elements (es : Elements) (rest : List UInt8) :
    clean (es.text ++ rest) = (strings_clean es.strings && clean rest) := by
  cases es with
  | last v w =>
    have hv := clean_value v (colon_follows_mark (c := 93) (by decide) w rest)
    rw [clean_ws, clean_mark (by decide)] at hv
    rw [Elements.text, List.append_assoc, List.append_assoc, Elements.strings]
    exact hv
  | more v w w' es =>
    have hv := clean_value v (colon_follows_mark (c := 44) (by decide) w (w'.val ++ (es.text ++ rest)))
    rw [clean_ws, clean_mark (by decide), clean_ws, clean_elements es] at hv
    rw [Elements.text, Elements.strings, strings_clean_append, Bool.and_assoc, ← hv]
    simp only [List.append_assoc, List.cons_append]

theorem clean_members (ms : Members) (rest : List UInt8) :
    clean (ms.text ++ rest) = (strings_clean ms.strings && clean rest) := by
  cases ms with
  | last key w w' v w'' =>
    have hv := clean_value v (colon_follows_mark (c := 125) (by decide) w'' rest)
    rw [clean_ws, clean_mark (by decide)] at hv
    simp only [Members.text, List.append_assoc, List.cons_append, List.nil_append]
    rw [clean_quoted, clean_ws, clean_mark (by decide), clean_ws, hv, Members.strings,
      strings_clean, strings_clean, List.all_cons, Bool.and_assoc]
  | more key w w' v w'' w₃ ms =>
    have hv := clean_value v
      (colon_follows_mark (c := 44) (by decide) w'' (w₃.val ++ (ms.text ++ rest)))
    rw [clean_ws, clean_mark (by decide), clean_ws, clean_members ms] at hv
    simp only [Members.text, List.append_assoc, List.cons_append]
    rw [clean_quoted, clean_ws, clean_mark (by decide), clean_ws, hv, Members.strings,
      strings_clean, strings_clean, strings_clean, List.all_cons, List.all_append,
      Bool.and_assoc, Bool.and_assoc]

end

/-! ## A text is a C string -/

theorem zero_notMem_ws (w : Ws) : 0 ∉ w.val := fun h => absurd (w.property 0 h) (by decide)

theorem zero_notMem_quoted (s : List Piece) : 0 ∉ quoted s := by
  have hpiece : ∀ p : Piece, 0 ∉ p.text := by
    intro p h
    cases p with
    | unescaped c hc =>
      rw [Piece.text, List.mem_singleton] at h
      exact absurd (h ▸ hc.1) (by decide)
    | escape c hc =>
      rw [Piece.text, List.mem_cons, List.mem_singleton] at h
      rcases h with h | h
      · exact absurd h (by decide)
      · exact absurd (h ▸ hc) (by decide)
    | unicode digits hd =>
      rw [Piece.text, List.mem_cons, List.mem_cons] at h
      rcases h with h | h | h
      · exact absurd h (by decide)
      · exact absurd h (by decide)
      · exact absurd (hd.2 0 h) (by decide)
  intro h
  rw [quoted, List.mem_cons, List.mem_append, List.mem_singleton] at h
  rcases h with h | h | h
  · exact absurd h (by decide)
  · obtain ⟨p, -, hp⟩ := List.mem_flatMap.mp h
    exact hpiece p hp
  · exact absurd h (by decide)

mutual

theorem zero_notMem_value (v : Value) : 0 ∉ v.text := by
  cases v with
  | null => rw [Value.text]; decide
  | true => rw [Value.text]; decide
  | false => rw [Value.text]; decide
  | number n =>
    intro h
    exact (Number.plain n 0 h).1 rfl
  | string s => exact zero_notMem_quoted s
  | empty_array w => simp [Value.text, zero_notMem_ws w]
  | array w es => simp [Value.text, zero_notMem_ws w, zero_notMem_elements es]
  | empty_object w => simp [Value.text, zero_notMem_ws w]
  | object w ms => simp [Value.text, zero_notMem_ws w, zero_notMem_members ms]

theorem zero_notMem_elements (es : Elements) : 0 ∉ es.text := by
  cases es with
  | last v w => simp [Elements.text, zero_notMem_ws w, zero_notMem_value v]
  | more v w w' es =>
    simp [Elements.text, zero_notMem_ws w, zero_notMem_ws w', zero_notMem_value v,
      zero_notMem_elements es]

theorem zero_notMem_members (ms : Members) : 0 ∉ ms.text := by
  cases ms with
  | last key w w' v w'' =>
    simp [Members.text, zero_notMem_quoted key, zero_notMem_ws w, zero_notMem_ws w',
      zero_notMem_ws w'', zero_notMem_value v]
  | more key w w' v w'' w₃ ms =>
    simp [Members.text, zero_notMem_quoted key, zero_notMem_ws w, zero_notMem_ws w',
      zero_notMem_ws w'', zero_notMem_ws w₃, zero_notMem_value v, zero_notMem_members ms]

end

theorem zero_notMem_bytes (t : Text) : 0 ∉ t.bytes := by
  simp [Text.bytes, zero_notMem_ws, zero_notMem_value]

/-- An object or an array starts with its mark. -/
theorem container_text {v : Value} (hv : v.is_container = true) :
    ∃ c cs, v.text = c :: cs ∧ (c = 123 ∨ c = 91) := by
  cases v with
  | empty_array w => exact ⟨91, _, rfl, Or.inr rfl⟩
  | array w es => exact ⟨91, _, rfl, Or.inr rfl⟩
  | empty_object w => exact ⟨123, _, rfl, Or.inl rfl⟩
  | object w ms => exact ⟨123, _, rfl, Or.inl rfl⟩
  | null => cases hv
  | true => cases hv
  | false => cases hv
  | number n => cases hv
  | string s => cases hv

theorem clean_bytes (t : Text) : clean t.bytes = strings_clean t.value.strings := by
  have hbehind : colon_follows t.behind.val = false := by
    have h := colon_follows_ws t.behind []
    rwa [List.append_nil] at h
  have hclean : clean t.behind.val = true := by
    have h := clean_ws t.behind []
    rwa [List.append_nil] at h
  rw [Text.bytes, clean_ws, clean_value t.value hbehind, hclean, Bool.and_true]

/-- No string has an apostrophe, or a word in front of blanks and a colon. -/
def StringsClean (v : Value) : Prop := ∀ s ∈ v.strings, clean (contents s) = true

/-- **Conversion of JSON.** A text with an object or an array is kept but for white space exactly if
its strings are clean, and then only the white space in front of it is left out. -/
theorem convert_json_iff (t : Text) (hcontainer : t.value.is_container = true) :
    (SameButSpace (convert_shorthand_to_json t.bytes) t.bytes ↔ StringsClean t.value) ∧
      (convert_shorthand_to_json t.bytes = t.value.text ++ t.behind.val ↔
        StringsClean t.value) := by
  obtain ⟨c, cs, htext, hc⟩ := container_text hcontainer
  have hspace : ¬ isspace c = true := by
    rcases hc with rfl | rfl <;> decide
  have hstart : t.bytes.dropWhile isspace = t.value.text ++ t.behind.val := by
    have hws : ∀ d ∈ t.before.val, isspace d = true :=
      fun d hd => ws_isspace (t.before.property d hd)
    rw [Text.bytes, List.dropWhile_append_of_pos hws, htext, List.cons_append,
      List.dropWhile_cons_of_neg hspace]
  have hsame : SameButSpace (t.value.text ++ t.behind.val) t.bytes :=
    hstart ▸ sameButSpace_dropWhile t.bytes
  have hstrings : clean t.bytes = true ↔ StringsClean t.value := by
    rw [clean_bytes, strings_clean, List.all_eq_true, StringsClean]
  have hcons := hstart
  rw [htext, List.cons_append] at hcons
  rw [← hstrings]
  rcases convert_or (zero_notMem_bytes t) hcons hc with ⟨hclean, hkept⟩ | ⟨hdirty, hdiffers⟩
  · rw [hkept, hstart]
    exact ⟨iff_of_true hsame hclean, iff_of_true rfl hclean⟩
  · have hnot : ¬ clean t.bytes = true := by
      rw [hdirty]
      exact Bool.false_ne_true
    refine ⟨iff_of_false hdiffers hnot, iff_of_false (fun heq => hdiffers ?_) hnot⟩
    rw [heq]
    exact hsame

/-- An array of one string of these characters. -/
def array_of (s : List Piece) : Text :=
  ⟨⟨[], List.forall_mem_nil _⟩,
    .array ⟨[], List.forall_mem_nil _⟩ (.last (.string s) ⟨[], List.forall_mem_nil _⟩),
    ⟨[], List.forall_mem_nil _⟩⟩

/-- `10:30` -/
def half_past_ten : List Piece :=
  [.unescaped 49 (by decide), .unescaped 48 (by decide), .unescaped 58 (by decide),
    .unescaped 51 (by decide), .unescaped 48 (by decide)]

theorem convert_json_array :
    (SameButSpace (convert_shorthand_to_json (array_of half_past_ten).bytes)
        (array_of half_past_ten).bytes ↔ StringsClean (array_of half_past_ten).value) ∧
      (convert_shorthand_to_json (array_of half_past_ten).bytes =
        (array_of half_past_ten).value.text ++ (array_of half_past_ten).behind.val ↔
          StringsClean (array_of half_past_ten).value) :=
  convert_json_iff (array_of half_past_ten) rfl

/-- `["10:30"]` becomes `[""10":30"]`. -/
theorem convert_json_changes :
    (array_of half_past_ten).bytes = [91, 34, 49, 48, 58, 51, 48, 34, 93] ∧
      convert_shorthand_to_json (array_of half_past_ten).bytes =
        [91, 34, 34, 49, 48, 34, 58, 51, 48, 34, 93] ∧
      ¬ SameButSpace (convert_shorthand_to_json (array_of half_past_ten).bytes)
        (array_of half_past_ten).bytes := by
  have hconvert : convert_shorthand_to_json (array_of half_past_ten).bytes =
      [91, 34, 34, 49, 48, 34, 58, 51, 48, 34, 93] := by decide +kernel
  refine ⟨by decide +kernel, hconvert, ?_⟩
  intro hsame
  have hcount := hsame.count_quote
  rw [hconvert] at hcount
  exact absurd hcount (by decide +kernel)

end SysInC.JsonShorthand
