/-
What `transform_advanced_expressions` loses of an expression.

A form goes up to the bracket that closes it, whatever brackets and literals stand in between, and
in a literal there are no forms (`python_pieces`). The loop of the source reads the same forms as
long as its buffers and its search for the first bracket suffice, and behind most of them it
leaves out a character. `transform_iff` says when nothing goes wrong.
-/
import SysInC.PythonPlaces
import SysInC.PythontForms
import Mathlib.Data.List.TakeWhile

set_option autoImplicit false

namespace SysInC.PythontForms

open PythonPlaces
open PythontRewrite (symbol_t var_type_t find_symbol)

variable {symbols : List symbol_t} {name after : List Char}

/-! ## The forms of an expression -/

/-- Up to the bracket that closes, and over it. -/
def up_to (close : Char) (s : List Char) : List Char × List Char :=
  ((inside close .code 0 s).1, (inside close .code 0 s).2.tail)

/-- A slice has a colon outside the brackets and the literals of its content. -/
def python_slice (s : List Char) : Option (List Char × List Char) :=
  if (inside ':' .code 0 (up_to ']' s).1).2 = [] then none else some (up_to ']' s)

theorem up_to_suffix (close : Char) (s : List Char) : (up_to close s).2 <:+ s :=
  (List.tail_suffix _).trans ⟨_, inside_append close .code 0 s⟩

theorem python_slice_suffix (s : List Char) (p : List Char × List Char)
    (h : python_slice s = some p) :
    p.2 <:+ s := by
  unfold python_slice at h
  split at h
  · cases h
  · obtain rfl := Option.some.inj h
    exact up_to_suffix ']' s

def python_readers : readers where
  argument _ := up_to ')'
  arguments := up_to ')'
  key := up_to ']'
  slice := python_slice
  argument_suffix _ := up_to_suffix ')'
  arguments_suffix := up_to_suffix ')'
  key_suffix := up_to_suffix ']'
  slice_suffix := python_slice_suffix

/-- The form that begins here, where the text is code. -/
def python_form (symbols : List symbol_t) (m : mode) (s : List Char) :
    Option (form_t × List Char) :=
  if (s.head?.map fun c => (read m c).2) = some .code then form_at python_readers symbols s
  else none

/-- The forms and the characters outside them, each with the number of characters from it on. -/
def python_loop (symbols : List symbol_t) : ℕ → mode → List Char → List (ℕ × piece_t)
  | 0, _, _ => []
  | _ + 1, _, [] => []
  | fuel + 1, m, c :: s =>
    if is_first c then
      match python_form symbols m (c :: s) with
      | some p =>
        let read := (c :: s).take ((c :: s).length - p.2.length)
        ((c :: s).length, .form p.1) :: python_loop symbols fuel (mode_behind m read) p.2
      | none =>
        let rest := (c :: s).drop (word symbols (c :: s)).length
        copied (word symbols (c :: s)) rest
          ++ python_loop symbols fuel (mode_behind m (word symbols (c :: s))) rest
    else ((c :: s).length, .char c) :: python_loop symbols fuel (read m c).1 s

def python_pieces (symbols : List symbol_t) (expr : List Char) : List (ℕ × piece_t) :=
  python_loop symbols expr.length .code expr

/-- The texts that begin with a name, each with what has been read in front of it. -/
def names_from (symbols : List symbol_t) : ℕ → mode → List Char → List (mode × List Char)
  | 0, _, _ => []
  | _ + 1, _, [] => []
  | fuel + 1, m, c :: s =>
    if is_first c then
      match python_form symbols m (c :: s) with
      | some p =>
        let read := (c :: s).take ((c :: s).length - p.2.length)
        (m, c :: s) :: names_from symbols fuel (mode_behind m read) p.2
      | none =>
        let rest := (c :: s).drop (word symbols (c :: s)).length
        (m, c :: s) :: names_from symbols fuel (mode_behind m (word symbols (c :: s))) rest
    else names_from symbols fuel (read m c).1 s

def names (symbols : List symbol_t) (expr : List Char) : List (mode × List Char) :=
  names_from symbols expr.length .code expr

/-! ## The forms that are read whole -/

/-- What the branch for a form leaves; the bracket of a slice is left to `i++`. -/
def left_behind (p : form_t × List Char) : form_t × List Char :=
  match p.1 with
  | .slice .. => (p.1, p.2.tail)
  | _ => p

/-- Behind this form `i++` leaves out a character. -/
def form_t.skips (f : form_t) : Bool :=
  match f with
  | .slice .. => false
  | f => !f.steps_back

/-- The form that begins with the name here is read up to its end, and none is seen in a literal. -/
def Whole (symbols : List symbol_t) (m : mode) (s : List Char) : Prop :=
  (form_at c_readers symbols s).map left_behind = python_form symbols m s

/-- Nothing stands behind the form, if it is one behind which a character is left out. -/
def Last (symbols : List symbol_t) (m : mode) (s : List Char) : Prop :=
  ∀ p ∈ python_form symbols m s, p.1.skips → p.2 = []

/-! ## What a form reads -/

/-- What the forms of a name come to, whoever reads their arguments; slices are left out. -/
inductive Kind (after : List Char) : (readers → Option (form_t × List Char)) → Prop where
  | none : Kind after fun _ => none
  | bare (f : form_t) (left : List Char) (hf : f.skips) (hleft : left <:+ after) :
      Kind after fun _ => some (f, left)
  | argument (g : List Char → form_t) (size : ℕ) (s : List Char) (hg : Function.Injective g)
      (hf : ∀ a, (g a).skips) (hs : s <:+ after) :
      Kind after fun R => some (g (R.argument size s).1, (R.argument size s).2)
  | arguments (g : List Char → form_t) (s : List Char) (hf : ∀ a, (g a).steps_back)
      (hs : s <:+ after) : Kind after fun R => some (g (R.arguments s).1, (R.arguments s).2)
  | key (g : List Char → form_t) (s : List Char) (hf : ∀ a, (g a).steps_back)
      (hs : s <:+ after) : Kind after fun R => some (g (R.key s).1, (R.key s).2)

theorem Kind.or {F G : readers → Option (form_t × List Char)} (hF : Kind after F)
    (hG : Kind after G) : Kind after fun R => (F R).or (G R) := by
  cases hF with
  | none => exact hG
  | bare f left hf hleft => exact .bare f left hf hleft
  | argument g size s hg hf hs => exact .argument g size s hg hf hs
  | arguments g s hf hs => exact .arguments g s hf hs
  | key g s hf hs => exact .key g s hf hs

theorem string_form_kind (symbols : List symbol_t) (name after : List Char) :
    Kind after fun R => string_form R symbols name after := by
  unfold string_form
  cases string_methods.find? (here ·.1 after) with
  | some m => exact .bare (.method m.2 name) _ rfl (List.drop_suffix _ after)
  | none =>
      cases string_methods_with.find? (here ·.1 after) with
      | none => exact .none
      | some m =>
          dsimp only
          by_cases hlist : m.1 = ".count(" ∧ type_of symbols name = some .VAR_LIST
          · simp only [if_pos hlist]
            exact .argument (.method_with _ _) m.2.1 _ (fun a b h => by cases h; rfl)
              (fun _ => rfl) (List.drop_suffix _ after)
          · simp only [if_neg hlist]
            exact .argument (.method_with _ _) m.2.1 _ (fun a b h => by cases h; rfl)
              (fun _ => rfl) (List.drop_suffix _ after)

theorem dict_form_kind (symbols : List symbol_t) (name after : List Char) :
    Kind after fun R => dict_form R symbols name after := by
  unfold dict_form
  by_cases htype : type_of symbols name ≠ some .VAR_DICT
  · simp only [if_pos htype]
    exact .none
  simp only [if_neg htype]
  by_cases hkeys : here ".keys()" after
  · simp only [if_pos hkeys]
    exact .bare _ _ rfl (List.drop_suffix _ after)
  simp only [if_neg hkeys]
  by_cases hvalues : here ".values()" after
  · simp only [if_pos hvalues]
    exact .bare _ _ rfl (List.drop_suffix _ after)
  simp only [if_neg hvalues]
  by_cases hget : here ".get(" after
  · simp only [if_pos hget]
    exact .argument (.get name) 256 _ (fun a b h => by cases h; rfl) (fun _ => rfl)
      (List.drop_suffix _ after)
  · simp only [if_neg hget]
    exact .none

theorem object_form_kind (symbols : List symbol_t) (name after : List Char) :
    Kind after fun R => object_form R symbols name after := by
  unfold object_form
  cases find_symbol symbols name with
  | none => exact .none
  | some sym =>
      dsimp only
      split
      · refine .arguments (.object _ _ name) _ (fun _ => rfl) ?_
        exact ((List.tail_suffix _).trans (List.drop_suffix _ _)).trans (List.tail_suffix _)
      · exact .none

theorem file_form_kind (symbols : List symbol_t) (name after : List Char) :
    Kind after fun _ => file_form symbols name after := by
  unfold file_form
  split
  · exact .bare _ _ rfl (List.drop_suffix _ after)
  · exact .none

theorem index_form_kind (symbols : List symbol_t) (name after : List Char) :
    Kind after fun R => index_form R symbols name after := by
  unfold index_form
  split
  · exact .key (.index name) _ (fun _ => rfl) (List.tail_suffix _)
  · exact .none

/-- Either there is a form in front, or all is left to what comes last. -/
theorem Kind.or_last {F : readers → Option (form_t × List Char)} (hF : Kind after F)
    (G : readers → Option (form_t × List Char)) :
    Kind after (fun R => (F R).or (G R)) ∨ ∀ R, (F R).or (G R) = G R := by
  cases hF with
  | none => exact Or.inr fun _ => rfl
  | bare f left hf hleft => exact Or.inl (.bare f left hf hleft)
  | argument g size s hg hf hs => exact Or.inl (.argument g size s hg hf hs)
  | arguments g s hf hs => exact Or.inl (.arguments g s hf hs)
  | key g s hf hs => exact Or.inl (.key g s hf hs)

theorem Kind.suffix {F : readers → Option (form_t × List Char)} (hF : Kind after F)
    {R : readers} {p : form_t × List Char} (h : F R = some p) : p.2 <:+ after := by
  cases hF with
  | none => cases h
  | bare f left hf hleft =>
      obtain rfl := Option.some.inj h
      exact hleft
  | argument g size s hg hf hs =>
      obtain rfl := Option.some.inj h
      exact (R.argument_suffix size s).trans hs
  | arguments g s hf hs =>
      obtain rfl := Option.some.inj h
      exact (R.arguments_suffix s).trans hs
  | key g s hf hs =>
      obtain rfl := Option.some.inj h
      exact (R.key_suffix s).trans hs

/-- A form is one of these, or a slice. -/
theorem form_kind (symbols : List symbol_t) (name after : List Char) :
    Kind after (fun R => form R symbols name after)
    ∨ ∃ s, s <:+ after ∧ ∀ R, form R symbols name after
      = (R.slice s).map fun p => (.slice name p.1, p.2) := by
  have hfirst := ((((string_form_kind symbols name after).or
    (dict_form_kind symbols name after)).or (object_form_kind symbols name after)).or
    (file_form_kind symbols name after)).or (index_form_kind symbols name after)
  have hlast := hfirst.or_last fun R => slice_form R symbols name after
  simp only [Option.or_assoc] at hlast
  rcases hlast with hkind | hslice
  · exact Or.inl hkind
  by_cases hopen : type_of symbols name = some .VAR_STR ∧ after.head? = some '['
  · exact Or.inr ⟨after.tail, List.tail_suffix after, fun R => (hslice R).trans (if_pos hopen)⟩
  · have hnone : (fun R => form R symbols name after) = fun _ => none :=
      funext fun R => (hslice R).trans (if_neg hopen)
    rw [hnone]
    exact Or.inl .none

theorem form_suffix {R : readers} {p : form_t × List Char}
    (h : form R symbols name after = some p) : p.2 <:+ after := by
  rcases form_kind symbols name after with hkind | ⟨s, hs, hslice⟩
  · exact hkind.suffix h
  · rw [hslice] at h
    obtain ⟨q, hq, rfl⟩ := Option.map_eq_some_iff.mp h
    exact (R.slice_suffix s q hq).trans hs

/-! ## One form -/

/-- An argument that is read whole is left where it ends. -/
theorem copy_until_left {close : Char} {size : ℕ} {s : List Char}
    (h : (copy_until close size s).1 = (up_to close s).1) :
    (copy_until close size s).2 = (up_to close s).2 := by
  -- both leave the same text behind the argument
  have hleft : s.drop (copy_until close size s).1.length = (inside close .code 0 s).2 := by
    rw [h]
    nth_rewrite 2 [← inside_append close .code 0 s]
    exact List.drop_left
  have hcopy : (copy_until close size s).2
      = if (inside close .code 0 s).2.head? = some close then (inside close .code 0 s).2.tail
        else (inside close .code 0 s).2 := by
    rw [← hleft]
    rfl
  rw [hcopy]
  unfold up_to
  rcases inside_closed close .code 0 s with hnil | hclose
  · rw [hnil]
    rfl
  · rw [if_pos hclose]

/-- An argument is read whole where it fits in the buffer and holds no closing bracket of its
own. -/
theorem copy_until_eq_up_to_iff {close : Char} {size : ℕ} {s : List Char} (hsize : 0 < size) :
    copy_until close size s = up_to close s
    ↔ close ∉ (up_to close s).1 ∧ (up_to close s).1.length < size := by
  constructor
  · intro heq
    rw [← heq]
    unfold copy_until
    refine ⟨fun hmem => ?_, ?_⟩
    · have := List.mem_takeWhile_imp (List.mem_of_mem_take hmem)
      simp at this
    · have := List.length_take_le (size - 1) (s.takeWhile (· ≠ close))
      dsimp only
      omega
  · rintro ⟨hclose, hfits⟩
    have harg : (copy_until close size s).1 = (up_to close s).1 := by
      have htake : s.takeWhile (· ≠ close) = (up_to close s).1 := by
        have happend := inside_append close .code 0 s
        have hin : ∀ c ∈ (inside close .code 0 s).1, decide (c ≠ close) = true :=
          fun c hc => decide_eq_true fun h => hclose (h ▸ hc)
        unfold up_to
        conv_lhs => rw [← happend, List.takeWhile_append_of_pos hin]
        rcases inside_closed close .code 0 s with hnil | hhead
        · rw [hnil, List.takeWhile_nil, List.append_nil]
        · obtain ⟨rest, hrest⟩ := List.head?_eq_some_iff.mp hhead
          rw [hrest, List.takeWhile_cons_of_neg (by simp), List.append_nil]
      unfold copy_until
      dsimp only
      rw [htake, List.take_of_length_le (by omega)]
    exact Prod.ext harg (copy_until_left harg)

theorem tail_eq_self_iff {l : List Char} : l.tail = l ↔ l = [] := by
  cases l with
  | nil => simp
  | cons c l => simp

theorem next_of_not_skips {p : form_t × List Char} (h : ¬ p.1.skips) :
    (p.1, next p) = left_behind p := by
  obtain ⟨f, left⟩ := p
  cases f <;> first | rfl | exact absurd rfl h

theorem left_behind_of_skips {p : form_t × List Char} (h : p.1.skips) :
    left_behind p = p ∧ next p = p.2.tail := by
  obtain ⟨f, left⟩ := p
  cases f <;> first | exact ⟨rfl, rfl⟩ | cases h

theorem not_skips_of_steps_back {f : form_t} (h : f.steps_back) : ¬ f.skips := by
  cases f <;> first | exact Bool.false_ne_true | cases h

/-- What `next_form_iff` says, where no character is left out. -/
theorem next_iff_of_stays {o o' : Option (form_t × List Char)} (ho : ∀ p ∈ o, ¬ p.1.skips)
    (ho' : ∀ p ∈ o', ¬ p.1.skips) :
    o.map (fun p => (p.1, next p)) = o'
    ↔ o.map left_behind = o' ∧ ∀ p ∈ o', p.1.skips → p.2 = [] := by
  have hsame : o.map (fun p => (p.1, next p)) = o.map left_behind :=
    Option.map_congr fun p hp => next_of_not_skips (ho p hp)
  rw [hsame]
  exact (and_iff_left fun p hp hskips => absurd hskips (ho' p hp)).symm

/-- What `next_form_iff` says, where a character is left out. -/
theorem next_iff_of_skips {p q : form_t × List Char} (hp : p.1.skips)
    (hleft : p.1 = q.1 → p.2 = q.2) :
    (some p).map (fun p => (p.1, next p)) = some q
    ↔ (some p).map left_behind = some q ∧ ∀ r ∈ some q, r.1.skips → r.2 = [] := by
  obtain ⟨hbehind, hnext⟩ := left_behind_of_skips hp
  rw [Option.map_some, Option.map_some, Option.some.injEq, Option.some.injEq, hbehind, hnext]
  constructor
  · intro heq
    have hform : p.1 = q.1 := by rw [← heq]
    have htail : p.2.tail = q.2 := by rw [← heq]
    refine ⟨Prod.ext hform (hleft hform), fun r hr _ => ?_⟩
    obtain rfl := Option.some.inj hr
    exact tail_eq_self_iff.mp ((congrArg List.tail (hleft hform)).symm.trans htail)
  · rintro ⟨rfl, hlast⟩
    exact Prod.ext rfl (tail_eq_self_iff.mpr (hlast p rfl hp))

theorem Kind.next_iff {F : readers → Option (form_t × List Char)} (hF : Kind after F) :
    (F c_readers).map (fun p => (p.1, next p)) = F python_readers
    ↔ (F c_readers).map left_behind = F python_readers
      ∧ ∀ p ∈ F python_readers, p.1.skips → p.2 = [] := by
  have hback : ∀ (f : form_t) (left : List Char), f.steps_back →
      ∀ p ∈ some (f, left), ¬ p.1.skips := by
    intro f left hf p hp
    obtain rfl := Option.some.inj hp
    exact not_skips_of_steps_back hf
  cases hF with
  | none =>
      have hnone : ∀ p ∈ (Option.none : Option (form_t × List Char)), ¬ p.1.skips :=
        fun p hp => absurd hp (Option.not_mem_none p)
      exact next_iff_of_stays hnone hnone
  | bare f left hf hleft => exact next_iff_of_skips hf fun _ => rfl
  | argument g size s hg hf hs =>
      exact next_iff_of_skips (hf _) fun h => copy_until_left (hg h)
  | arguments g s hf hs => exact next_iff_of_stays (hback _ _ (hf _)) (hback _ _ (hf _))
  | key g s hf hs => exact next_iff_of_stays (hback _ _ (hf _)) (hback _ _ (hf _))

/-- The loop goes on behind the form exactly where the form is read whole and, where a character
is left out, nothing stands behind it. -/
theorem next_form_iff (symbols : List symbol_t) (name after : List Char) :
    (form c_readers symbols name after).map (fun p => (p.1, next p))
      = form python_readers symbols name after
    ↔ (form c_readers symbols name after).map left_behind = form python_readers symbols name after
      ∧ ∀ p ∈ form python_readers symbols name after, p.1.skips → p.2 = [] := by
  rcases form_kind symbols name after with hkind | ⟨s, hs, hslice⟩
  · exact hkind.next_iff
  · have hstays : ∀ R, ∀ p ∈ form R symbols name after, ¬ p.1.skips := by
      intro R p hp
      rw [Option.mem_def, hslice] at hp
      obtain ⟨q, hq, rfl⟩ := Option.map_eq_some_iff.mp hp
      exact Bool.false_ne_true
    exact next_iff_of_stays (hstays c_readers) (hstays python_readers)

/-! ## The loop -/

section

-- the equations of the loops are made here, and not by each proof anew
attribute [local simp] loop python_loop names_from

end

section Loop

variable {n : ℕ} {m : mode} {c : Char} {s : List Char} {p q : form_t × List Char}

theorem loop_char (hc : ¬ is_first c) :
    loop symbols (n + 1) (c :: s) = ((c :: s).length, .char c) :: loop symbols n s := by
  rw [loop, if_neg hc]

theorem loop_form (hc : is_first c) (hp : form_at c_readers symbols (c :: s) = some p) :
    loop symbols (n + 1) (c :: s) = ((c :: s).length, .form p.1) :: loop symbols n (next p) := by
  rw [loop, if_pos hc]
  simp only [hp]

/-- What is left behind a name that is copied. -/
def behind_word (symbols : List symbol_t) (s : List Char) : List Char :=
  s.drop (word symbols s).length

theorem loop_word (hc : is_first c) (hp : form_at c_readers symbols (c :: s) = none) :
    loop symbols (n + 1) (c :: s)
      = copied (word symbols (c :: s)) (behind_word symbols (c :: s))
        ++ loop symbols n (behind_word symbols (c :: s)) := by
  rw [loop, if_pos hc]
  simp only [hp]
  rfl

theorem python_loop_char (hc : ¬ is_first c) :
    python_loop symbols (n + 1) m (c :: s)
      = ((c :: s).length, .char c) :: python_loop symbols n (read m c).1 s := by
  rw [python_loop, if_neg hc]

theorem python_loop_form (hc : is_first c) (hq : python_form symbols m (c :: s) = some q) :
    ∃ m', python_loop symbols (n + 1) m (c :: s)
        = ((c :: s).length, .form q.1) :: python_loop symbols n m' q.2
      ∧ names_from symbols (n + 1) m (c :: s) = (m, c :: s) :: names_from symbols n m' q.2 := by
  refine ⟨mode_behind m ((c :: s).take ((c :: s).length - q.2.length)), ?_, ?_⟩
  · rw [python_loop, if_pos hc]
    simp only [hq]
  · rw [names_from, if_pos hc]
    simp only [hq]

theorem python_loop_word (hc : is_first c) (hq : python_form symbols m (c :: s) = none) :
    ∃ m', python_loop symbols (n + 1) m (c :: s)
        = copied (word symbols (c :: s)) (behind_word symbols (c :: s))
          ++ python_loop symbols n m' (behind_word symbols (c :: s))
      ∧ names_from symbols (n + 1) m (c :: s)
        = (m, c :: s) :: names_from symbols n m' (behind_word symbols (c :: s)) := by
  refine ⟨mode_behind m (word symbols (c :: s)), ?_, ?_⟩
  · rw [python_loop, if_pos hc]
    simp only [hq]
    rfl
  · rw [names_from, if_pos hc]
    simp only [hq]
    rfl

theorem ident_ne_nil (hc : is_first c) : ident (c :: s) ≠ [] := by
  have hword : is_word c := by
    unfold is_first at hc
    unfold is_word Char.isAlphanum
    rcases Bool.or_eq_true_iff.mp hc with h | h <;> simp [h]
  unfold ident
  rw [List.takeWhile_cons_of_pos hword]
  exact List.cons_ne_nil _ _

/-- A name is not empty. -/
theorem length_behind_word (symbols : List symbol_t) (hc : is_first c) :
    (behind_word symbols (c :: s)).length ≤ s.length := by
  have hname := List.length_pos_iff.mpr (ident_ne_nil (s := s) hc)
  unfold behind_word word
  rw [List.length_drop, List.length_append, List.length_cons]
  omega

theorem length_form_at {R : readers} (hc : is_first c) (hp : form_at R symbols (c :: s) = some p) :
    p.2.length ≤ s.length := by
  have hname := List.length_pos_iff.mpr (ident_ne_nil (s := s) hc)
  have hleft := (form_suffix hp).length_le
  rw [List.length_drop, List.length_cons] at hleft
  omega

theorem ident_front (s : List Char) : ident s <+: s :=
  (List.take_prefix _ _).trans (List.takeWhile_prefix _)

theorem f_access_front (symbols : List symbol_t) (name after : List Char) :
    f_access symbols name after <+: after := by
  unfold f_access
  split
  case isTrue hdot =>
      obtain ⟨rest, rfl⟩ := List.head?_eq_some_iff.mp hdot.2
      exact List.cons_prefix_cons.mpr ⟨rfl, ident_front rest⟩
  case isFalse => exact List.nil_prefix

theorem word_append (symbols : List symbol_t) (s : List Char) :
    word symbols s ++ behind_word symbols s = s := by
  have hword : word symbols s <+: ident s ++ s.drop (ident s).length :=
    (List.prefix_append_right_inj _).mpr (f_access_front symbols _ _)
  rw [List.prefix_iff_eq_append.mp (ident_front s)] at hword
  exact List.prefix_iff_eq_append.mp hword

theorem copied_word (symbols : List symbol_t) (hc : is_first c) :
    ∃ ps, copied (word symbols (c :: s)) (behind_word symbols (c :: s))
      = ((c :: s).length, .char c) :: ps := by
  have happend := word_append symbols (c :: s)
  cases hword : word symbols (c :: s) with
  | nil => exact absurd (List.append_eq_nil_iff.mp hword).1 (ident_ne_nil hc)
  | cons d w =>
      rw [hword] at happend
      obtain ⟨rfl, -⟩ := List.cons.inj happend
      refine ⟨copied w (behind_word symbols (d :: s)), ?_⟩
      rw [copied, ← List.length_append, happend]

/-- The first piece says how much was left. -/
theorem loop_head (symbols : List symbol_t) (n : ℕ) (c : Char) (s : List Char) :
    ∃ x ps, loop symbols (n + 1) (c :: s) = ((c :: s).length, x) :: ps := by
  by_cases hc : is_first c
  · cases hp : form_at c_readers symbols (c :: s) with
    | some p => exact ⟨_, _, loop_form hc hp⟩
    | none =>
        obtain ⟨ps, hps⟩ := copied_word (s := s) symbols hc
        rw [loop_word hc hp, hps]
        exact ⟨_, _, rfl⟩
  · exact ⟨_, _, loop_char hc⟩

theorem python_loop_head (symbols : List symbol_t) (n : ℕ) (m : mode) (c : Char) (s : List Char) :
    ∃ x ps, python_loop symbols (n + 1) m (c :: s) = ((c :: s).length, x) :: ps := by
  by_cases hc : is_first c
  · cases hq : python_form symbols m (c :: s) with
    | some q =>
        obtain ⟨m', hloop, -⟩ := python_loop_form (n := n) hc hq
        exact ⟨_, _, hloop⟩
    | none =>
        obtain ⟨m', hloop, -⟩ := python_loop_word (n := n) hc hq
        obtain ⟨ps, hps⟩ := copied_word (s := s) symbols hc
        rw [hloop, hps]
        exact ⟨_, _, rfl⟩
  · exact ⟨_, _, python_loop_char hc⟩

/-- Two runs that append the same have equally much left to read. -/
theorem length_eq_of_loop_eq {s' : List Char} (hn : s.length ≤ n) (hn' : s'.length ≤ n)
    (h : loop symbols n s = python_loop symbols n m s') : s.length = s'.length := by
  cases n with
  | zero => omega
  | succ n =>
      cases s with
      | nil =>
          cases s' with
          | nil => rfl
          | cons d s' =>
              obtain ⟨x, ps, hps⟩ := python_loop_head symbols n m d s'
              rw [hps, loop] at h
              cases h
      | cons c s =>
          obtain ⟨x, ps, hps⟩ := loop_head symbols n c s
          cases s' with
          | nil =>
              rw [hps, python_loop] at h
              cases h
          | cons d s' =>
              obtain ⟨y, qs, hqs⟩ := python_loop_head symbols n m d s'
              rw [hps, hqs] at h
              exact congrArg Prod.fst (List.cons.inj h).1

/-- What `loop_eq_iff` says of a name: the loop goes on where the form ends. -/
theorem whole_last_iff (symbols : List symbol_t) (m : mode) (s : List Char) :
    Whole symbols m s ∧ Last symbols m s
    ↔ (form_at c_readers symbols s).map (fun p => (p.1, next p)) = python_form symbols m s := by
  unfold Whole Last python_form
  split
  · exact (next_form_iff symbols _ _).symm
  · cases form_at c_readers symbols s <;> simp

theorem next_suffix (hp : form_at c_readers symbols s = some p) :
    next p <:+ s ∧ (next p).length ≤ p.2.length := by
  have hleft : p.2 <:+ s := (form_suffix hp).trans (List.drop_suffix _ _)
  unfold next
  split
  · exact ⟨hleft, le_rfl⟩
  · exact ⟨(List.tail_suffix _).trans hleft, (List.tail_suffix _).length_le⟩

theorem python_form_suffix (hq : python_form symbols m s = some q) :
    q.2 <:+ s ∧ form_at python_readers symbols s = some q := by
  unfold python_form at hq
  split at hq
  · exact ⟨(form_suffix hq).trans (List.drop_suffix _ _), hq⟩
  · cases hq

/-- What `loop_eq_iff` says where both see a form. -/
theorem forms_eq_iff (hs : s.length ≤ n) (hc : is_first c)
    (hp : form_at c_readers symbols (c :: s) = some p)
    (hq : python_form symbols m (c :: s) = some q) (m' : mode) :
    p.1 = q.1 ∧ loop symbols n (next p) = python_loop symbols n m' q.2
    ↔ (p.1, next p) = q ∧ loop symbols n q.2 = python_loop symbols n m' q.2 := by
  constructor
  · rintro ⟨hform, hloop⟩
    obtain ⟨hsuffix, hnext⟩ := next_suffix hp
    obtain ⟨hsuffix', hq'⟩ := python_form_suffix hq
    have hlen := length_eq_of_loop_eq ((hnext.trans (length_form_at hc hp)).trans hs)
      ((length_form_at hc hq').trans hs) hloop
    have hleft : next p = q.2 :=
      (List.suffix_of_suffix_length_le hsuffix hsuffix' hlen.le).eq_of_length hlen
    exact ⟨Prod.ext hform hleft, hleft ▸ hloop⟩
  · rintro ⟨rfl, hloop⟩
    exact ⟨rfl, hloop⟩

/-- The loop reads the forms of the text exactly where each one is read whole and nothing that is
left out stands behind it. The induction is on what is left of the text. -/
theorem loop_eq_iff (hn : s.length ≤ n) :
    loop symbols n s = python_loop symbols n m s
    ↔ ∀ t ∈ names_from symbols n m s, Whole symbols t.1 t.2 ∧ Last symbols t.1 t.2 := by
  induction n generalizing m s with
  | zero => simp [loop, python_loop, names_from]
  | succ n ih =>
      cases s with
      | nil => simp [loop, python_loop, names_from]
      | cons c s =>
          have hs : s.length ≤ n := Nat.le_of_succ_le_succ hn
          by_cases hc : is_first c
          case neg =>
              rw [loop_char hc, python_loop_char hc, List.cons_inj_right, ih hs, names_from,
                if_neg hc]
          case pos =>
              obtain ⟨ps, hps⟩ := copied_word (s := s) symbols hc
              cases hq : python_form symbols m (c :: s) with
              | none =>
                  obtain ⟨m', hloop, hnames⟩ := python_loop_word (n := n) hc hq
                  rw [hloop, hnames, List.forall_mem_cons, whole_last_iff, hq]
                  cases hp : form_at c_readers symbols (c :: s) with
                  | none =>
                      rw [loop_word hc hp, List.append_right_inj,
                        ih ((length_behind_word symbols hc).trans hs)]
                      simp
                  | some p =>
                      rw [loop_form hc hp, hps]
                      simp
              | some q =>
                  obtain ⟨m', hloop, hnames⟩ := python_loop_form (n := n) hc hq
                  have hleft := length_form_at hc (python_form_suffix hq).2
                  rw [hloop, hnames, List.forall_mem_cons, whole_last_iff, hq,
                    ← ih (hleft.trans hs)]
                  cases hp : form_at c_readers symbols (c :: s) with
                  | none =>
                      rw [loop_word hc hp, hps]
                      simp
                  | some p =>
                      rw [loop_form hc hp, Option.map_some, Option.some.injEq,
                        ← forms_eq_iff hs hc hp hq m']
                      simp

end Loop

/-! ## The expression -/

/-- A text cut into forms and characters, with nothing between them. -/
inductive Covers : List Char → List (ℕ × piece_t) → Prop where
  | nil : Covers [] []
  | char (c : Char) {s : List Char} {ps : List (ℕ × piece_t)} (h : Covers s ps) :
      Covers (c :: s) (((c :: s).length, .char c) :: ps)
  | form (f : form_t) {s rest : List Char} {ps : List (ℕ × piece_t)} (hrest : rest <:+ s)
      (h : Covers rest ps) : Covers s ((s.length, .form f) :: ps)

theorem Covers.copied {w rest : List Char} {ps : List (ℕ × piece_t)} (h : Covers rest ps) :
    Covers (w ++ rest) (copied w rest ++ ps) := by
  induction w with
  | nil => exact h
  | cons c w ih =>
      have hlen : (c :: w).length + rest.length = (c :: (w ++ rest)).length := by simp; omega
      rw [List.cons_append, PythontForms.copied, hlen]
      exact .char c ih

/-- The forms and the characters outside them are all of the text. -/
theorem python_loop_covers (symbols : List symbol_t) {n : ℕ} {m : mode} {s : List Char}
    (hn : s.length ≤ n) : Covers s (python_loop symbols n m s) := by
  induction n generalizing m s with
  | zero =>
      obtain rfl := List.eq_nil_of_length_eq_zero (Nat.le_zero.mp hn)
      exact .nil
  | succ n ih =>
      cases s with
      | nil => exact .nil
      | cons c s =>
          have hs : s.length ≤ n := Nat.le_of_succ_le_succ hn
          by_cases hc : is_first c
          case neg =>
              rw [python_loop_char hc]
              exact .char c (ih hs)
          case pos =>
              cases hq : python_form symbols m (c :: s) with
              | none =>
                  obtain ⟨m', hloop, -⟩ := python_loop_word (n := n) hc hq
                  have hrest := ih (m := m') ((length_behind_word symbols hc).trans hs)
                  have hcopied := hrest.copied (w := word symbols (c :: s))
                  rwa [word_append, ← hloop] at hcopied
              | some q =>
                  obtain ⟨m', hloop, -⟩ := python_loop_form (n := n) hc hq
                  obtain ⟨hsuffix, hq'⟩ := python_form_suffix hq
                  rw [hloop]
                  exact .form q.1 hsuffix (ih ((length_form_at hc hq').trans hs))

theorem python_pieces_covers (symbols : List symbol_t) (expr : List Char) :
    Covers expr (python_pieces symbols expr) := python_loop_covers symbols le_rfl

example : text (python_pieces [⟨['s'], .VAR_STR, []⟩] "s[1:2:3]+s.count(\")\")".toList)
    = "py_str_slice(s, 1, 2, 3)+py_str_count(s, \")\")".toList := by decide

end SysInC.PythontForms
