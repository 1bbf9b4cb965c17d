/-
The names and the string literals of an expression, for what `replace_operators` of
`src/pythont/pythont.c` may change of it.

`lex` cuts a text into names, literals and single characters, as Python reads it, and `Rewrites`
says that whole words of the tables have been changed and that every other piece stands as it
stood. A literal may have one quote or three, a backslash takes the character behind it along, and
a literal that is not closed goes on to the end of the text.
-/
import Mathlib.Data.List.Infix
import SysInC.PythontRewrite

set_option autoImplicit false

namespace SysInC.PythontRewrite

/-! ## Pieces -/

inductive piece_t where
  | name (text : List Char)
  | literal (text : List Char)
  | sign (c : Char)
  deriving DecidableEq

def piece_t.text : piece_t → List Char
  | name text => text
  | literal text => text
  | sign c => [c]

def text (ps : List piece_t) : List Char := ps.flatMap piece_t.text

/-- Letters, digits, the underscore and the bytes of other scripts. -/
def is_ident (c : Char) : Bool := c.isAlphanum || c == '_' || 128 ≤ c.toNat

/-- A literal behind its opening quotes, the closing ones with it. -/
def body (quote : List Char) : List Char → List Char
  | [] => []
  | '\\' :: c :: s => '\\' :: c :: body quote s
  | c :: s => if quote.isPrefixOf (c :: s) then quote else c :: body quote s

/-- One quote, or three. -/
def opening (c : Char) (s : List Char) : List Char := if [c, c].isPrefixOf s then [c, c, c] else [c]

/-- The piece that begins with this character. -/
def first (c : Char) (s : List Char) : piece_t :=
  if is_ident c then .name (c :: s.takeWhile is_ident)
  else if is_quote c then
    .literal (opening c s ++ body (opening c s) ((c :: s).drop (opening c s).length))
  else .sign c

def lex_run : ℕ → List Char → List piece_t
  | 0, _ => []
  | _ + 1, [] => []
  | fuel + 1, c :: s => first c s :: lex_run fuel ((c :: s).drop (first c s).text.length)

def lex (s : List Char) : List piece_t := lex_run s.length s

/-! ## What may be changed -/

def words : List word_t := words_before ++ words_behind

/-- `len(` of such a name becomes something else than a call of `strlen`. -/
def is_sized (symbols : List symbol_t) (name : List Char) : Bool :=
  (find_symbol symbols name).any fun s => s.type = .VAR_LIST ∨ s.type = .VAR_DICT

/-- A word at the front of the pieces, what stands for it in C, and the pieces behind it. -/
inductive Changes (symbols : List symbol_t) : List piece_t → List Char → List piece_t → Prop
  | word {w : word_t} {ps : List piece_t} : w ∈ words →
      Changes symbols (lex w.text.toList ++ ps) w.fragment.toList ps
  | sum {ts ps : List piece_t} : ')' ∉ text ts →
      Changes symbols (lex "sum(".toList ++ (ts ++ .sign ')' :: ps)) (sum_call (text ts)) ps
  | len_sized {ts ps : List piece_t} : ')' ∉ text ts → is_sized symbols (text ts) = true →
      Changes symbols (lex "len(".toList ++ (ts ++ .sign ')' :: ps)) (len_call symbols (text ts)) ps
  | len_str {ps : List piece_t} : is_sized symbols ((text ps).takeWhile (· ≠ ')')) = false →
      Changes symbols (lex "len(".toList ++ ps) "(int64_t)strlen(".toList ps

/-- Some of the words are changed, and nothing else is. -/
inductive Rewrites (symbols : List symbol_t) : List piece_t → List Char → Prop
  | nil : Rewrites symbols [] []
  | copy {p : piece_t} {ps : List piece_t} {out : List Char} : Rewrites symbols ps out →
      Rewrites symbols (p :: ps) (p.text ++ out)
  | change {ps ps' : List piece_t} {fragment out : List Char} : Changes symbols ps fragment ps' →
      Rewrites symbols ps' out → Rewrites symbols ps (fragment ++ out)

/-- Only whole words outside of literals have been changed. -/
def Respects (symbols : List symbol_t) (expr out : List Char) : Prop :=
  Rewrites symbols (lex expr) out

/-! ## The pieces of a text -/

theorem text_cons (p : piece_t) (ps : List piece_t) : text (p :: ps) = p.text ++ text ps :=
  List.flatMap_cons

theorem text_append (ps qs : List piece_t) : text (ps ++ qs) = text ps ++ text qs :=
  List.flatMap_append

/-- A literal ends with its quote or with the text. -/
theorem body_spec (quote s : List Char) : body quote s <+: s
    ∧ (body quote s = s ∨ quote <:+ body quote s) := by
  induction s using body.induct quote with
  | case1 => exact ⟨List.prefix_rfl, Or.inl rfl⟩
  | case2 c s ih =>
      obtain ⟨hpre, hend⟩ := ih
      rw [body]
      refine ⟨(List.prefix_cons_inj _).mpr ((List.prefix_cons_inj _).mpr hpre), ?_⟩
      rcases hend with heq | hend
      · exact Or.inl (by rw [heq])
      · exact Or.inr (hend.trans ⟨['\\', c], rfl⟩)
  | case3 c s hne hclosing =>
      rw [body, if_pos hclosing]
      · exact ⟨List.isPrefixOf_iff_prefix.mp hclosing, Or.inr List.suffix_rfl⟩
      · exact hne
  | case4 c s hne hopen ih =>
      obtain ⟨hpre, hend⟩ := ih
      rw [body, if_neg hopen]
      · refine ⟨(List.prefix_cons_inj _).mpr hpre, ?_⟩
        rcases hend with heq | hend
        · exact Or.inl (by rw [heq])
        · exact Or.inr (hend.trans ⟨[c], rfl⟩)
      · exact hne

theorem opening_spec (c : Char) (s : List Char) :
    ∃ n, opening c s = c :: List.replicate n c ∧ opening c s <+: c :: s := by
  by_cases h : [c, c].isPrefixOf s
  · refine ⟨2, by rw [opening, if_pos h]; rfl, ?_⟩
    rw [opening, if_pos h]
    exact (List.prefix_cons_inj _).mpr (List.isPrefixOf_iff_prefix.mp h)
  · refine ⟨0, by rw [opening, if_neg h]; rfl, ?_⟩
    rw [opening, if_neg h]
    exact ⟨s, rfl⟩

/-- A piece begins with its character and is a part of the text. -/
theorem first_spec (c : Char) (s : List Char) :
    ∃ t u, (first c s).text = c :: t ∧ s = t ++ u := by
  unfold first
  split
  · exact ⟨_, _, rfl, (List.takeWhile_append_dropWhile (p := is_ident)).symm⟩
  · split
    · obtain ⟨n, hopen, front⟩ := opening_spec c s
      obtain ⟨hbody, -⟩ := body_spec (opening c s) ((c :: s).drop (opening c s).length)
      obtain ⟨u, hu⟩ := hbody
      obtain ⟨v, hv⟩ := front
      refine ⟨List.replicate n c ++ body (opening c s) ((c :: s).drop (opening c s).length), u,
        ?_, ?_⟩
      · rw [piece_t.text, ← List.cons_append, ← hopen]
      · have hdrop : (c :: s).drop (opening c s).length = v := by rw [← hv, List.drop_left]
        rw [List.append_assoc, hu, hdrop]
        have hall : c :: s = c :: (List.replicate n c ++ v) := by
          rw [← List.cons_append, ← hopen, hv]
        exact List.tail_eq_of_cons_eq hall
    · exact ⟨[], s, rfl, rfl⟩

theorem lex_run_fuel (n m : ℕ) (s : List Char) (hn : s.length ≤ n) (hm : s.length ≤ m) :
    lex_run n s = lex_run m s := by
  induction n generalizing m s with
  | zero =>
      obtain rfl := List.length_eq_zero_iff.mp (Nat.le_zero.mp hn)
      cases m <;> rfl
  | succ n ih =>
      cases s with
      | nil => cases m <;> rfl
      | cons c s =>
          cases m with
          | zero => exact absurd hm (Nat.not_succ_le_zero _)
          | succ m =>
              rw [lex_run, lex_run]
              obtain ⟨t, u, htext, rfl⟩ := first_spec c s
              have hle : ((c :: (t ++ u)).drop (first c (t ++ u)).text.length).length
                  ≤ (t ++ u).length := by
                rw [htext, List.length_cons, List.drop_succ_cons, List.length_drop]
                exact Nat.sub_le _ _
              rw [ih m _ (hle.trans (Nat.le_of_succ_le_succ hn))
                (hle.trans (Nat.le_of_succ_le_succ hm))]

theorem lex_cons {c : Char} {t u : List Char} (h : (first c (t ++ u)).text = c :: t) :
    lex (c :: (t ++ u)) = first c (t ++ u) :: lex u := by
  have hdrop : (c :: (t ++ u)).drop (first c (t ++ u)).text.length = u := by
    rw [h, ← List.cons_append, List.drop_left]
  rw [lex, List.length_cons, lex_run, hdrop]
  congr 1
  exact lex_run_fuel _ _ _ (by rw [List.length_append]; exact Nat.le_add_left _ _) le_rfl

theorem lex_nil : lex [] = [] := rfl

/-- The pieces are the text. -/
theorem text_lex (s : List Char) : text (lex s) = s := by
  induction hn : s.length using Nat.strong_induction_on generalizing s with
  | _ n ih =>
      cases s with
      | nil => rfl
      | cons c s =>
          obtain ⟨t, u, htext, rfl⟩ := first_spec c s
          have hless : u.length < n := by
            rw [← hn, List.length_cons, List.length_append]
            exact Nat.lt_succ_of_le (Nat.le_add_left _ _)
          rw [lex_cons htext, text_cons, htext, ih _ hless u rfl, List.cons_append]

/-- What stands behind some of the pieces is cut as it would be alone. -/
theorem lex_behind {s : List Char} {front ps : List piece_t} (h : lex s = front ++ ps) :
    s = text front ++ text ps ∧ ps = lex (text ps) := by
  refine ⟨by rw [← text_append, ← h, text_lex], ?_⟩
  induction front generalizing s with
  | nil =>
      rw [List.nil_append] at h
      rw [← h, text_lex]
  | cons p front ih =>
      cases s with
      | nil => exact absurd h.symm (List.cons_ne_nil _ _)
      | cons c s =>
          obtain ⟨t, u, htext, rfl⟩ := first_spec c s
          rw [lex_cons htext, List.cons_append] at h
          exact ih (List.cons_eq_cons.mp h).2

/-- A name goes on as far as it can. -/
theorem lex_name_behind {s t : List Char} {front ps : List piece_t}
    (h : lex s = front ++ .name t :: ps) : is_ident ((text ps).headD '\x00') = false := by
  obtain ⟨-, hbehind⟩ := lex_behind h
  cases hs : text (.name t :: ps) with
  | nil =>
      rw [hs] at hbehind
      exact absurd hbehind (List.cons_ne_nil _ _)
  | cons c x =>
      rw [hs] at hbehind
      obtain ⟨y, u, htext, rfl⟩ := first_spec c x
      rw [lex_cons htext, List.cons_eq_cons] at hbehind
      obtain ⟨hname, hps⟩ := hbehind
      rw [hps, text_lex]
      rw [← hname] at htext
      unfold first at hname
      split at hname
      · injection hname with ht
        have hy : y = (y ++ u).takeWhile is_ident :=
          List.tail_eq_of_cons_eq (htext.symm.trans ht)
        have hu : u = (y ++ u).dropWhile is_ident := by
          have hsplit := List.takeWhile_append_dropWhile (p := is_ident) (l := y ++ u)
          rw [← hy] at hsplit
          exact (List.append_cancel_left hsplit).symm
        cases u with
        | nil => decide
        | cons d u =>
            have hstop := List.head?_dropWhile_not is_ident (y ++ d :: u)
            rw [← hu] at hstop
            exact hstop
      · split at hname
        · exact absurd hname (by simp)
        · exact absurd hname (by simp)

/-- The places where a piece begins. -/
def starts (expr : List Char) : List (List Char) := (lex expr).tails.map text

/-- Behind some of the pieces only their own places count. -/
theorem mem_starts_behind {s u x : List Char} {front : List piece_t}
    (h : lex s = front ++ lex u) (hx : x.length ≤ u.length) : x ∈ starts s ↔ x ∈ starts u := by
  induction front generalizing s with
  | nil =>
      rw [List.nil_append] at h
      rw [starts, starts, h]
  | cons p front ih =>
      cases s with
      | nil => exact absurd h.symm (List.cons_ne_nil _ _)
      | cons c s =>
          obtain ⟨t, v, htext, rfl⟩ := first_spec c s
          have hcons := lex_cons htext
          rw [hcons, List.cons_append, List.cons_eq_cons] at h
          rw [← ih h.2, starts, starts, hcons, List.tails_cons, List.map_cons, List.mem_cons,
            or_iff_right]
          -- the piece in front makes the whole text longer
          rintro rfl
          have hlen := congrArg (fun ps => (text ps).length) h.2
          simp only [text_cons, htext, text_append, text_lex, List.length_append,
            List.length_cons] at hx hlen
          omega

theorem mem_starts_self (s : List Char) : s ∈ starts s :=
  List.mem_map.mpr ⟨lex s, (List.mem_tails _ _).mpr List.suffix_rfl, text_lex s⟩

theorem starts_length {s x : List Char} (h : x ∈ starts s) : x.length ≤ s.length := by
  obtain ⟨ps, hps, rfl⟩ := List.mem_map.mp h
  obtain ⟨front, hfront⟩ := (List.mem_tails _ _).mp hps
  have hlen := congrArg List.length (lex_behind hfront.symm).1
  rw [List.length_append] at hlen
  omega

end SysInC.PythontRewrite
