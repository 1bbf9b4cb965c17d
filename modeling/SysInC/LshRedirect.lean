/-
Redirections of the shell. A layout names its words, the last file for the input and the last one
for the output; what is run with these is exactly what stands apart in the text, and no builtin is
run with a file at all.
-/
import SysInC.LshLayout
import Mathlib.Data.List.Forall2

set_option autoImplicit false

namespace SysInC.Lsh

open Tokens

/-! ## What a layout names -/

def Item.as_word : Item → Option (List Char)
  | .word w => some w
  | .redirect _ _ _ => none

def Item.input : Item → Option (List Char)
  | .redirect .inp _ target => some target
  | _ => none

def Item.output : Item → Option (List Char × Bool)
  | .redirect .out _ target => some (target, false)
  | .redirect .app _ target => some (target, true)
  | _ => none

def words (l : List Placed) : List (List Char) := l.filterMap (·.item.as_word)

/-- What the items name; the last file counts. -/
def names (l : List Placed) : Run where
  args := words l
  infile := (l.filterMap (·.item.input)).getLast?
  outfile := (l.filterMap (·.item.output)).getLast?

/-! ## Where this is what is run -/

/-- No operator is directly behind a word. -/
def WordsApart : List Placed → Prop
  | [] => True
  | ⟨_, .word _⟩ :: l => glued l = false ∧ WordsApart l
  | ⟨_, .redirect _ _ _⟩ :: l => WordsApart l

/-- An operator directly behind the file of `prev` makes no file into a word: it is one more of the
same direction with its file directly behind it, or a `>>` behind an input. -/
def Joined (prev op : Op) (gap : List Char) : Prop :=
  if prev = .inp then op = .app ∨ (op = .inp ∧ gap = []) else op ≠ .inp ∧ gap = []

/-- This holds of all operators directly behind a file; `prev` is the one whose file is in
front. -/
def Harmless : Option Op → List Placed → Prop
  | _, [] => True
  | _, ⟨_, .word _⟩ :: l => Harmless none l
  | prev, ⟨blanks, .redirect op gap _⟩ :: l =>
    (blanks ≠ [] ∨ ∀ p ∈ prev, Joined p op gap) ∧ Harmless (some op) l

/-- Whether the last redirection of a kind is not directly behind another's file. -/
def last_apart (kind : Op → Bool) : Option Op → List Placed → Option Bool
  | _, [] => none
  | _, ⟨_, .word _⟩ :: l => last_apart kind none l
  | prev, ⟨blanks, .redirect op _ _⟩ :: l =>
    (last_apart kind (some op) l).or
      (if kind op = true then some (!blanks.isEmpty || prev.isNone) else none)

def Op.is_input (op : Op) : Bool := op == .inp

def Op.is_output (op : Op) : Bool := op != .inp

structure Sound (l : List Placed) : Prop where
  apart : WordsApart l
  files : Harmless none l
  input : last_apart Op.is_input none l ≠ some false
  output : last_apart Op.is_output none l ≠ some false

/-! ## Arguments -/

/-- The words with whether an operator is directly behind. -/
def entries : List Placed → List (List Char × Bool)
  | [] => []
  | ⟨_, .word w⟩ :: l => (w, glued l) :: entries l
  | ⟨_, .redirect _ _ _⟩ :: l => entries l

/-- What is open behind an operator. -/
def Open.Behind : Open → Option Op → Prop
  | .nothing, prev => prev = none
  | .inp _, prev => prev = some .inp
  | .out _ _, prev => prev = some .out ∨ prev = some .app

theorem Open.Behind.of_out {name : List Char} {append : Bool} {prev : Option Op}
    (h : (Open.out name append).Behind prev) : ∃ p, prev = some p ∧ p ≠ .inp := by
  obtain rfl | rfl := h
  · exact ⟨_, rfl, nofun⟩
  · exact ⟨_, rfl, nofun⟩

theorem Op.behind_opens (op : Op) (name : List Char) : (op.opens name).Behind (some op) := by
  cases op with
  | inp => rfl
  | out => exact Or.inl rfl
  | app => exact Or.inr rfl

theorem behind_entries (r : Reading) (o : Open) : (r.behind o).entries = r.entries := by
  cases o with
  | nothing => rfl
  | inp name => rfl
  | out name append => rfl

/-- The ways in which a redirection is recognised that makes no file into a word. -/
theorem follow_cases {o : Open} {prev : Option Op} (ho : o.Behind prev) {blanks gap : List Char}
    {op : Op} (h : blanks ≠ [] ∨ ∀ p ∈ prev, Joined p op gap) (k : ℕ) (target : List Char)
    (l : List Placed) :
    ((blanks ≠ [] ∨ prev = none) ∧ follow o k (⟨blanks, .redirect op gap target⟩ :: l) =
        (follow (op.opens target) k l).behind o) ∨
      (blanks = [] ∧ prev ≠ none ∧
        ((∃ name, o = .inp name ∧ op = .app ∧
            follow o k (⟨blanks, .redirect op gap target⟩ :: l) =
              (follow (.out target false) k l).behind o) ∨
          (∃ name, o = .inp name ∧ op = .inp ∧
            follow o k (⟨blanks, .redirect op gap target⟩ :: l) =
              follow (.inp (name ++ (op.chars ++ target))) k l) ∨
          ∃ name append, o = .out name append ∧ op ≠ .inp ∧
            follow o k (⟨blanks, .redirect op gap target⟩ :: l) =
              follow (.out (name ++ (op.chars ++ target)) append) k l)) := by
  cases blanks with
  | cons b blanks =>
    refine Or.inl ⟨Or.inl (List.cons_ne_nil _ _), ?_⟩
    rw [follow, if_pos (List.cons_ne_nil _ _)]
  | nil =>
    have hfollow : follow o k (⟨[], .redirect op gap target⟩ :: l) = join o op gap target
        (fun o => follow o k l) (record k target l fun k => follow .nothing k l) := by
      rw [follow, if_neg (not_not_intro rfl)]
    have hjoined := h.resolve_left (not_not_intro rfl)
    rw [hfollow]
    cases o with
    | nothing => exact Or.inl ⟨Or.inr ho, rfl⟩
    | inp name =>
      obtain rfl : prev = some .inp := ho
      refine Or.inr ⟨rfl, Option.some_ne_none _, ?_⟩
      obtain rfl | ⟨rfl, rfl⟩ := hjoined .inp rfl
      · exact Or.inl ⟨name, rfl, rfl, rfl⟩
      · exact Or.inr (Or.inl ⟨name, rfl, rfl, rfl⟩)
    | out name append =>
      obtain ⟨p, rfl, hp⟩ := Open.Behind.of_out ho
      have hsame := hjoined p rfl
      rw [Joined, if_neg hp] at hsame
      obtain ⟨hop, rfl⟩ := hsame
      refine Or.inr ⟨rfl, Option.some_ne_none _, Or.inr (Or.inr ⟨name, append, rfl, hop, ?_⟩)⟩
      cases op with
      | inp => exact absurd rfl hop
      | out => rfl
      | app => rfl

/-- Otherwise the file becomes a word. -/
theorem follow_entries {o : Open} {prev : Option Op} (ho : o.Behind prev)
    (blanks gap : List Char) (op : Op) (k : ℕ) (target : List Char) (l : List Placed) :
    ((blanks ≠ [] ∨ ∀ p ∈ prev, Joined p op gap) ∧ ∃ o' : Open, o'.Behind (some op) ∧
        (follow o k (⟨blanks, .redirect op gap target⟩ :: l)).entries =
          (follow o' k l).entries) ∨
      ¬ (blanks ≠ [] ∨ ∀ p ∈ prev, Joined p op gap) ∧
        (follow o k (⟨blanks, .redirect op gap target⟩ :: l)).entries =
          (record k target l fun k => follow .nothing k l).entries := by
  by_cases h : blanks ≠ [] ∨ ∀ p ∈ prev, Joined p op gap
  · refine Or.inl ⟨h, ?_⟩
    obtain ⟨-, hfollow⟩ | ⟨-, -, ⟨name, rfl, rfl, hfollow⟩ | ⟨name, rfl, rfl, hfollow⟩ |
      ⟨name, append, rfl, hop, hfollow⟩⟩ := follow_cases ho h k target l
    · exact ⟨_, op.behind_opens target, by rw [hfollow, behind_entries]⟩
    · exact ⟨.out target false, Or.inr rfl, by rw [hfollow, behind_entries]⟩
    · exact ⟨.inp _, rfl, by rw [hfollow]⟩
    · refine ⟨.out _ append, ?_, by rw [hfollow]⟩
      cases op with
      | inp => exact absurd rfl hop
      | out => exact Or.inl rfl
      | app => exact Or.inr rfl
  · refine Or.inr ⟨h, ?_⟩
    rw [not_or, not_not] at h
    obtain ⟨rfl, hjoined⟩ := h
    rw [follow, if_neg (not_not_intro rfl)]
    cases o with
    | nothing =>
      obtain rfl : prev = none := ho
      exact absurd (fun p hp => absurd hp (Option.not_mem_none p)) hjoined
    | inp name =>
      obtain rfl : prev = some .inp := ho
      cases op with
      | inp =>
        rw [join, if_neg, behind_entries]
        rintro rfl
        exact hjoined fun p hp => Option.some.inj hp ▸ Or.inr ⟨rfl, rfl⟩
      | out => exact behind_entries _ _
      | app => exact absurd (fun p hp => Option.some.inj hp ▸ Or.inl rfl) hjoined
    | out name append =>
      obtain ⟨p, rfl, hp⟩ := Open.Behind.of_out ho
      have hgap : op ≠ .inp → gap ≠ [] := by
        rintro hop rfl
        refine hjoined fun p' hp' => ?_
        obtain rfl := Option.some.inj hp'
        rw [Joined, if_neg hp]
        exact ⟨hop, rfl⟩
      cases op with
      | inp => exact behind_entries _ _
      | out =>
        rw [join, if_neg (hgap (by decide)), behind_entries]
        decide
      | app =>
        rw [join, if_neg (hgap (by decide)), behind_entries]
        decide

/-- There is no room for more. -/
theorem follow_length_le (l : List Placed) {o : Open} {prev : Option Op} (ho : o.Behind prev)
    (k : ℕ) : (follow o k l).entries.length ≤ MAX_ARGS - 1 - k := by
  induction l generalizing o prev k with
  | nil =>
    rw [follow, behind_entries]
    exact Nat.zero_le _
  | cons p l ih =>
    obtain ⟨blanks, item⟩ := p
    have hrecord : ∀ w, (record k w l fun k => follow .nothing k l).entries.length ≤
        MAX_ARGS - 1 - k := by
      intro w
      unfold record
      split
      · have hrest := ih (o := .nothing) rfl (k + 1)
        dsimp only
        rw [List.length_cons]
        omega
      · exact ih (o := .nothing) rfl k
    cases item with
    | word w =>
      rw [follow, behind_entries]
      exact hrecord w
    | redirect op gap target =>
      obtain ⟨-, o', ho', hentries⟩ | ⟨-, hentries⟩ :=
        follow_entries ho blanks gap op k target l
      · exact hentries ▸ ih ho' k
      · exact hentries ▸ hrecord target

/-- A word is recorded with what is recognised behind it, if there is room. -/
theorem record_length_ge {k n : ℕ} {w : List Char} {l : List Placed} {rest : ℕ → Reading}
    (h : ∀ k, min (MAX_ARGS - 1 - k) n ≤ (rest k).entries.length) :
    min (MAX_ARGS - 1 - k) (n + 1) ≤ (record k w l rest).entries.length := by
  unfold record
  split
  · have hrest := h (k + 1)
    rw [List.length_cons]
    omega
  · omega

theorem words_cons_word (blanks w : List Char) (l : List Placed) :
    words (⟨blanks, .word w⟩ :: l) = w :: words l := rfl

theorem words_cons_redirect (blanks : List Char) (op : Op) (gap target : List Char)
    (l : List Placed) : words (⟨blanks, .redirect op gap target⟩ :: l) = words l := rfl

/-- No word is lost where there is room for it. -/
theorem follow_length_ge (l : List Placed) {o : Open} {prev : Option Op} (ho : o.Behind prev)
    (k : ℕ) : min (MAX_ARGS - 1 - k) (words l).length ≤ (follow o k l).entries.length := by
  induction l generalizing o prev k with
  | nil => exact (Nat.min_le_right _ _).trans (Nat.zero_le _)
  | cons p l ih =>
    obtain ⟨blanks, item⟩ := p
    have hrecord : ∀ w, min (MAX_ARGS - 1 - k) ((words l).length + 1) ≤
        (record k w l fun k => follow .nothing k l).entries.length :=
      fun w => record_length_ge fun k => ih (o := .nothing) rfl k
    cases item with
    | word w =>
      rw [follow, behind_entries]
      exact hrecord w
    | redirect op gap target =>
      rw [words_cons_redirect]
      obtain ⟨-, o', ho', hentries⟩ | ⟨-, hentries⟩ :=
        follow_entries ho blanks gap op k target l
      · exact hentries ▸ ih ho' k
      · rw [hentries]
        exact (by omega : _ ≤ min (MAX_ARGS - 1 - k) ((words l).length + 1)).trans
          (hrecord target)

/-- A file that becomes a word is one more. -/
theorem follow_length_gt (l : List Placed) {o : Open} {prev : Option Op} (ho : o.Behind prev)
    (h : ¬ Harmless prev l) (k : ℕ) :
    min (MAX_ARGS - 1 - k) ((words l).length + 1) ≤ (follow o k l).entries.length := by
  induction l generalizing o prev k with
  | nil => exact absurd trivial h
  | cons p l ih =>
    obtain ⟨blanks, item⟩ := p
    cases item with
    | word w =>
      rw [follow, behind_entries]
      exact record_length_ge fun k => ih (o := .nothing) rfl h k
    | redirect op gap target =>
      rw [words_cons_redirect]
      obtain ⟨hjoined, o', ho', hentries⟩ | ⟨-, hentries⟩ :=
        follow_entries ho blanks gap op k target l
      · exact hentries ▸ ih ho' (fun hrest => h ⟨hjoined, hrest⟩) k
      · rw [hentries]
        exact record_length_ge fun k => follow_length_ge l (o := .nothing) rfl k

/-- The words are recognised where no file becomes one. -/
theorem follow_entries_eq (l : List Placed) {o : Open} {prev : Option Op} (ho : o.Behind prev)
    (h : Harmless prev l) (k : ℕ) :
    (follow o k l).entries = (entries l).take (MAX_ARGS - 1 - k) := by
  induction l generalizing o prev k with
  | nil =>
    rw [follow, behind_entries, entries, List.take_nil]
  | cons p l ih =>
    obtain ⟨blanks, item⟩ := p
    cases item with
    | word w =>
      have hrest : ∀ k, (follow .nothing k l).entries = (entries l).take (MAX_ARGS - 1 - k) :=
        fun k => ih (o := .nothing) rfl h k
      rw [follow, behind_entries, entries, record]
      split
      · rename_i hk
        obtain ⟨m, hm⟩ : ∃ m, MAX_ARGS - 1 - k = m + 1 := ⟨MAX_ARGS - 1 - (k + 1), by omega⟩
        have hnext : MAX_ARGS - 1 - (k + 1) = m := by omega
        dsimp only
        rw [hrest, hm, hnext, List.take_succ_cons]
      · rename_i hk
        have hzero : MAX_ARGS - 1 - k = 0 := by omega
        rw [hrest, hzero, List.take_zero, List.take_zero]
    | redirect op gap target =>
      rw [entries]
      obtain ⟨-, o', ho', hentries⟩ | ⟨hnot, -⟩ := follow_entries ho blanks gap op k target l
      · exact hentries.trans (ih ho' h.2 k)
      · exact absurd h.1 hnot

/-! ## Files -/

section

variable {β : Type}

/-- What `got` is by how the last redirection stands: the one that was open in front when there is
none, the one that is named when it stands apart, and another otherwise. -/
def Agrees (flag : Option Bool) (got pending named : Option β) : Prop :=
  match flag with
  | none => got = pending ∧ named = none
  | some true => got = named ∧ named ≠ none
  | some false => (∃ x, got = some x ∧ named ≠ some x) ∧ named ≠ none

theorem Agrees.other {flag : Option Bool} {got named : Option β}
    (h : Agrees flag got none named) (pending : Option β) :
    Agrees flag (got.or pending) pending named := by
  match flag, h with
  | none, h => exact ⟨by rw [h.1, Option.none_or], h.2⟩
  | some true, h =>
    obtain ⟨x, hx⟩ := Option.ne_none_iff_exists'.mp h.2
    exact ⟨by rw [h.1, hx, Option.some_or], h.2⟩
  | some false, ⟨⟨x, hgot, hne⟩, hnamed⟩ =>
    exact ⟨⟨x, by rw [hgot, Option.some_or], hne⟩, hnamed⟩

theorem Agrees.apart {flag : Option Bool} {got named : Option β} {v : β}
    (h : Agrees flag got (some v) named) (pending : Option β) :
    Agrees (flag.or (some true)) (got.or pending) pending (named.or (some v)) := by
  match flag, h with
  | none, h =>
    refine ⟨by rw [h.1, h.2, Option.some_or, Option.none_or], ?_⟩
    rw [h.2]
    exact nofun
  | some true, h =>
    obtain ⟨x, hx⟩ := Option.ne_none_iff_exists'.mp h.2
    refine ⟨by rw [h.1, hx, Option.some_or, Option.some_or], ?_⟩
    rw [hx]
    exact nofun
  | some false, ⟨⟨x, hgot, hne⟩, hnamed⟩ =>
    obtain ⟨y, rfl⟩ := Option.ne_none_iff_exists'.mp hnamed
    exact ⟨⟨x, by rw [hgot, Option.some_or], hne⟩, nofun⟩

theorem Agrees.glued {flag : Option Bool} {got named : Option β} {x v : β}
    (h : Agrees flag got (some x) named) (hx : x ≠ v) (later pending : Option β) :
    Agrees (flag.or (some false)) (got.or later) pending (named.or (some v)) := by
  match flag, h with
  | none, h =>
    refine ⟨⟨x, by rw [h.1, Option.some_or], ?_⟩, ?_⟩
    · rw [h.2, Option.none_or]
      exact fun heq => hx (Option.some.inj heq).symm
    · rw [h.2]
      exact nofun
  | some true, h =>
    obtain ⟨y, hy⟩ := Option.ne_none_iff_exists'.mp h.2
    refine ⟨by rw [h.1, hy, Option.some_or, Option.some_or], ?_⟩
    rw [hy]
    exact nofun
  | some false, ⟨⟨y, hgot, hne⟩, hnamed⟩ =>
    obtain ⟨z, rfl⟩ := Option.ne_none_iff_exists'.mp hnamed
    exact ⟨⟨y, by rw [hgot, Option.some_or], hne⟩, nofun⟩

theorem Agrees.iff {flag : Option Bool} {got named : Option β} (h : Agrees flag got none named) :
    got = named ↔ flag ≠ some false := by
  match flag, h with
  | none, h => exact iff_of_true (h.1.trans h.2.symm) nofun
  | some true, h => exact iff_of_true h.1 nofun
  | some false, ⟨⟨x, hgot, hne⟩, _⟩ =>
    exact iff_of_false (fun heq => hne (heq ▸ hgot)) (not_not_intro rfl)

theorem getLast?_cons_or (v : β) (l : List β) : (v :: l).getLast? = l.getLast?.or (some v) := by
  rw [List.getLast?_cons]
  cases l.getLast? with
  | none => rfl
  | some w => rfl

end

def Open.infile : Open → Option (List Char)
  | .inp name => some name
  | _ => none

def Open.outfile : Open → Option (List Char × Bool)
  | .out name append => some (name, append)
  | _ => none

theorem behind_infile (r : Reading) (o : Open) : (r.behind o).infile = r.infile.or o.infile := by
  cases o with
  | nothing => exact (Option.or_none).symm
  | inp name => rfl
  | out name append => exact (Option.or_none).symm

theorem behind_outfile (r : Reading) (o : Open) :
    (r.behind o).outfile = r.outfile.or o.outfile := by
  cases o with
  | nothing => exact (Option.or_none).symm
  | inp name => exact (Option.or_none).symm
  | out name append => rfl

theorem apart_flag {blanks : List Char} {prev : Option Op} (h : blanks ≠ [] ∨ prev = none) :
    (!blanks.isEmpty || prev.isNone) = true := by
  rw [Bool.or_eq_true, Bool.not_eq_true', List.isEmpty_eq_false_iff, Option.isNone_iff_eq_none]
  exact h

theorem glued_flag {prev : Option Op} (h : prev ≠ none) :
    (!([] : List Char).isEmpty || prev.isNone) = false := by
  cases prev with
  | none => exact absurd rfl h
  | some op => rfl

/-- A name that has swallowed something is another one. -/
theorem swallowed_ne (name op target : List Char) (hop : op ≠ []) :
    name ++ (op ++ target) ≠ target := by
  intro heq
  have hlen := congrArg List.length heq
  have hpos := List.length_pos_of_ne_nil hop
  rw [List.length_append, List.length_append] at hlen
  omega

theorem record_files (k : ℕ) (w : List Char) (l : List Placed) (rest : ℕ → Reading) :
    ∃ k', (record k w l rest).infile = (rest k').infile ∧
      (record k w l rest).outfile = (rest k').outfile := by
  unfold record
  split
  · exact ⟨k + 1, rfl, rfl⟩
  · exact ⟨k, rfl, rfl⟩

theorem follow_infile (l : List Placed) {o : Open} {prev : Option Op} (ho : o.Behind prev)
    (h : Harmless prev l) (k : ℕ) :
    Agrees (last_apart Op.is_input prev l) (follow o k l).infile o.infile (names l).infile := by
  induction l generalizing o prev k with
  | nil =>
    refine ⟨?_, rfl⟩
    rw [follow, behind_infile, Option.none_or]
  | cons p l ih =>
    obtain ⟨blanks, item⟩ := p
    cases item with
    | word w =>
      obtain ⟨k', hin, -⟩ := record_files k w l fun k => follow .nothing k l
      rw [follow, behind_infile, hin]
      exact (ih (o := .nothing) rfl h k').other _
    | redirect op gap target =>
      have hnames : (names (⟨blanks, .redirect .inp gap target⟩ :: l)).infile =
          (names l).infile.or (some target) := getLast?_cons_or _ _
      rw [last_apart]
      obtain ⟨hapart, hfollow⟩ | ⟨rfl, hprev, ⟨name, rfl, rfl, hfollow⟩ |
        ⟨name, rfl, rfl, hfollow⟩ | ⟨name, append, rfl, hop, hfollow⟩⟩ :=
          follow_cases ho h.1 k target l
      -- it stands apart, and so it is seen
      · rw [hfollow, behind_infile, apart_flag hapart]
        have hrest := ih (op.behind_opens target) h.2 k
        cases op with
        | inp => exact hnames ▸ hrest.apart _
        | out =>
          rw [if_neg (by decide), Option.or_none]
          exact hrest.other _
        | app =>
          rw [if_neg (by decide), Option.or_none]
          exact hrest.other _
      -- `>>` at the end of a file for the input is seen as `>`
      · have hrest := ih (o := .out target false) (Or.inr rfl) h.2 k
        rw [hfollow, behind_infile, if_neg (by decide), Option.or_none]
        exact hrest.other _
      -- it is part of the name in front
      · have hrest := ih (o := .inp (name ++ (Op.inp.chars ++ target))) rfl h.2 k
        have hglued := hrest.glued (swallowed_ne name _ target (by decide)) none (some name)
        rw [Option.or_none] at hglued
        rw [hfollow, glued_flag hprev, if_pos (by decide), hnames]
        exact hglued
      · have ho' : (Open.out (name ++ (op.chars ++ target)) append).Behind (some op) := by
          cases op with
          | inp => exact absurd rfl hop
          | out => exact Or.inl rfl
          | app => exact Or.inr rfl
        have hrest := (ih ho' h.2 k).other none
        rw [Option.or_none] at hrest
        rw [hfollow]
        cases op with
        | inp => exact absurd rfl hop
        | out =>
          rw [if_neg (by decide), Option.or_none]
          exact hrest
        | app =>
          rw [if_neg (by decide), Option.or_none]
          exact hrest

theorem follow_outfile (l : List Placed) {o : Open} {prev : Option Op} (ho : o.Behind prev)
    (h : Harmless prev l) (k : ℕ) :
    Agrees (last_apart Op.is_output prev l) (follow o k l).outfile o.outfile
      (names l).outfile := by
  induction l generalizing o prev k with
  | nil =>
    refine ⟨?_, rfl⟩
    rw [follow, behind_outfile, Option.none_or]
  | cons p l ih =>
    obtain ⟨blanks, item⟩ := p
    cases item with
    | word w =>
      obtain ⟨k', -, hout⟩ := record_files k w l fun k => follow .nothing k l
      rw [follow, behind_outfile, hout]
      exact (ih (o := .nothing) rfl h k').other _
    | redirect op gap target =>
      have hout : (names (⟨blanks, .redirect .out gap target⟩ :: l)).outfile =
          (names l).outfile.or (some (target, false)) := getLast?_cons_or _ _
      have happ : (names (⟨blanks, .redirect .app gap target⟩ :: l)).outfile =
          (names l).outfile.or (some (target, true)) := getLast?_cons_or _ _
      rw [last_apart]
      obtain ⟨hapart, hfollow⟩ | ⟨rfl, hprev, ⟨name, rfl, rfl, hfollow⟩ |
        ⟨name, rfl, rfl, hfollow⟩ | ⟨name, append, rfl, hop, hfollow⟩⟩ :=
          follow_cases ho h.1 k target l
      -- it stands apart, and so it is seen
      · rw [hfollow, behind_outfile, apart_flag hapart]
        have hrest := ih (op.behind_opens target) h.2 k
        cases op with
        | inp =>
          rw [if_neg (by decide), Option.or_none]
          exact hrest.other _
        | out => exact hout ▸ hrest.apart _
        | app => exact happ ▸ hrest.apart _
      -- `>>` at the end of a file for the input is seen as `>`
      · have hrest := ih (o := .out target false) (Or.inr rfl) h.2 k
        rw [hfollow, behind_outfile, glued_flag hprev, if_pos (by decide), happ]
        exact hrest.glued (fun heq => Bool.false_ne_true (Prod.mk.inj heq).2) _ _
      -- it is part of the name in front
      · have hrest := (ih (o := .inp (name ++ (Op.inp.chars ++ target))) rfl h.2 k).other none
        rw [Option.or_none] at hrest
        rw [hfollow, if_neg (by decide), Option.or_none]
        exact hrest
      · have hne : ∀ b, (name ++ (op.chars ++ target), append) ≠ (target, b) := by
          intro b heq
          exact swallowed_ne name op.chars target (List.ne_nil_of_length_pos op.length_pos)
            (Prod.mk.inj heq).1
        rw [hfollow, glued_flag hprev]
        cases op with
        | inp => exact absurd rfl hop
        | out =>
          have hrest := ih (o := .out (name ++ (Op.out.chars ++ target)) append) (Or.inl rfl) h.2 k
          have hglued := hrest.glued (hne false) none (some (name, append))
          rw [Option.or_none] at hglued
          rw [hout]
          exact hglued
        | app =>
          have hrest := ih (o := .out (name ++ (Op.app.chars ++ target)) append) (Or.inr rfl) h.2 k
          have hglued := hrest.glued (hne true) none (some (name, append))
          rw [Option.or_none] at hglued
          rw [happ]
          exact hglued

/-! ## Sound layouts -/

/-- What is recognised is what is named. -/
def Recognised (l : List Placed) : Prop :=
  follow .nothing 0 l =
    ⟨(words l).map fun w => (w, false), (names l).infile, (names l).outfile⟩

theorem entries_length (l : List Placed) : (entries l).length = (words l).length := by
  induction l with
  | nil => rfl
  | cons p l ih =>
    obtain ⟨blanks, item⟩ := p
    cases item with
    | word w => exact congrArg Nat.succ ih
    | redirect op gap target => exact ih

theorem entries_eq_iff (l : List Placed) :
    entries l = ((words l).map fun w => (w, false)) ↔ WordsApart l := by
  induction l with
  | nil => exact iff_of_true rfl trivial
  | cons p l ih =>
    obtain ⟨blanks, item⟩ := p
    cases item with
    | word w =>
      rw [entries, words_cons_word, List.map_cons, List.cons.injEq, ih, WordsApart, Prod.mk.injEq]
      exact and_congr_left' (and_iff_right rfl)
    | redirect op gap target => exact ih

theorem Sound.recognised {l : List Placed} (h : Sound l) (hlen : (words l).length < MAX_ARGS) :
    Recognised l := by
  have hroom : (entries l).length ≤ MAX_ARGS - 1 - 0 := by
    rw [entries_length]
    omega
  refine Reading.ext ?_ ?_ ?_
  · rw [follow_entries_eq l (o := .nothing) rfl h.files, List.take_of_length_le hroom]
    exact (entries_eq_iff l).mpr h.apart
  · exact (follow_infile l (o := .nothing) rfl h.files 0).iff.mpr h.input
  · exact (follow_outfile l (o := .nothing) rfl h.files 0).iff.mpr h.output

theorem Recognised.length_lt {l : List Placed} (h : Recognised l) :
    (words l).length < MAX_ARGS := by
  have hle := follow_length_le l (o := .nothing) rfl 0
  rw [h, List.length_map] at hle
  have hpos : 0 < MAX_ARGS := by decide
  omega

theorem Recognised.sound {l : List Placed} (h : Recognised l)
    (hlen : (words l).length < MAX_ARGS - 1) : Sound l := by
  have hfiles : Harmless none l := by
    by_contra hnot
    have hmore := follow_length_gt l (o := .nothing) rfl hnot 0
    rw [h, List.length_map] at hmore
    omega
  have hroom : (entries l).length ≤ MAX_ARGS - 1 - 0 := by
    rw [entries_length]
    omega
  have hentries := follow_entries_eq l (o := .nothing) rfl hfiles 0
  rw [List.take_of_length_le hroom, h] at hentries
  exact {
    apart := (entries_eq_iff l).mp hentries.symm
    files := hfiles
    input := (follow_infile l (o := .nothing) rfl hfiles 0).iff.mp (congrArg Reading.infile h)
    output := (follow_outfile l (o := .nothing) rfl hfiles 0).iff.mp
      (congrArg Reading.outfile h) }

/-! ## What is run -/

theorem shown_iff {args : List (List Char)} {es : List (List Char × Bool)}
    (h : List.Forall₂ Shown args es) {ws : List (List Char)}
    (hws : ∀ w ∈ ws, ∀ c ∈ w, is_plain c = true) :
    args = ws ↔ es = ws.map fun w => (w, false) := by
  induction h generalizing ws with
  | nil =>
    cases ws with
    | nil => exact iff_of_true rfl rfl
    | cons w ws => exact iff_of_false nofun nofun
  | @cons arg e args es harg _ ih =>
    cases ws with
    | nil => exact iff_of_false nofun nofun
    | cons w ws =>
      rw [List.forall_mem_cons] at hws
      rw [List.cons.injEq, List.map_cons, List.cons.injEq, ih hws.2]
      refine and_congr_left' ?_
      obtain ⟨v, operator⟩ := e
      cases operator with
      | false =>
        obtain rfl : arg = v := harg
        rw [Prod.mk.injEq]
        exact (and_iff_left rfl).symm
      | true =>
        obtain ⟨c, hc, hop⟩ : ∃ c ∈ arg, c = '>' ∨ c = '<' := harg
        refine iff_of_false ?_ nofun
        rintro rfl
        obtain ⟨-, hgt, hlt, -⟩ := plain_facts (hws.1 c hc)
        exact hop.elim hgt hlt

theorem Layout.item_valid (s : Layout) : ∀ p ∈ s.items, p.item.Valid := by
  obtain ⟨items, last, valid, follows, gap⟩ := s
  cases items with
  | nil => exact fun p hp => absurd hp List.not_mem_nil
  | cons p l => exact List.forall_mem_cons.mpr ⟨(valid p rfl).2, fun q hq => (follows q hq).valid⟩

theorem Layout.word_plain (s : Layout) : ∀ w ∈ words s.items, ∀ c ∈ w, is_plain c = true := by
  intro w hw
  obtain ⟨p, hp, hword⟩ := List.mem_filterMap.mp hw
  have hvalid := s.item_valid p hp
  cases hitem : p.item with
  | word v =>
    rw [hitem] at hvalid hword
    obtain rfl := Option.some.inj hword
    exact hvalid.2
  | redirect op gap target =>
    rw [hitem] at hword
    exact nomatch hword

theorem parse_eq_names_iff (s : Layout) :
    parse_stage (text s.items s.last) = names s.items ↔ Recognised s.items := by
  have hshows := parse_layout s
  have hargs := shown_iff hshows.args s.word_plain
  rw [Run.ext_iff, Recognised, Reading.ext_iff, hshows.infile, hshows.outfile]
  exact and_congr_left' hargs

/-- No file is named. -/
def Fileless (l : List Placed) : Prop := (names l).infile = none ∧ (names l).outfile = none

/-- **Where redirections are recognised.** There is room for the words; and if there are files,
there is a command that is not a builtin, and the operators stand apart, or what becomes of them is
behind as many words as there is room for and changes nothing. -/
structure Recognisable (l : List Placed) : Prop where
  room : (words l).length < MAX_ARGS
  files : Fileless l ∨ words l ≠ [] ∧ is_builtin (words l) = false ∧
    (Sound l ∨ (words l).length = MAX_ARGS - 1 ∧ Recognised l)

theorem recognised_iff {l : List Placed} (hlen : (words l).length < MAX_ARGS) :
    Sound l ∨ (words l).length = MAX_ARGS - 1 ∧ Recognised l ↔ Recognised l := by
  constructor
  · rintro (hsound | ⟨-, h⟩)
    · exact hsound.recognised hlen
    · exact h
  · intro h
    by_cases hfull : (words l).length = MAX_ARGS - 1
    · exact Or.inr ⟨hfull, h⟩
    · exact Or.inl (h.sound (by omega))

/-- No word is directly behind another. -/
theorem glued_words {l : List Placed} (hl : ∀ p ∈ l, p.Follows)
    (hw : ∀ p ∈ l, ∃ w, p.item = .word w) : glued l = false := by
  cases l with
  | nil => rfl
  | cons p l =>
    obtain ⟨w, hitem⟩ := hw p List.mem_cons_self
    exact List.isEmpty_eq_false_iff.mpr ((hl p List.mem_cons_self).apart w hitem)

/-- Without files there are words only. -/
theorem Fileless.word {l : List Placed} (h : Fileless l) :
    ∀ p ∈ l, ∃ w, p.item = .word w := by
  have hin := List.filterMap_eq_nil_iff.mp (List.getLast?_eq_none_iff.mp h.1)
  have hout := List.filterMap_eq_nil_iff.mp (List.getLast?_eq_none_iff.mp h.2)
  intro p hp
  cases hitem : p.item with
  | word w => exact ⟨w, rfl⟩
  | redirect op gap target =>
    have hinp := hin p hp
    have houtp := hout p hp
    rw [hitem] at hinp houtp
    cases op with
    | inp => exact nomatch hinp
    | out => exact nomatch houtp
    | app => exact nomatch houtp

theorem Fileless.sound {l : List Placed} (h : Fileless l) (hl : ∀ p ∈ l.tail, p.Follows) :
    Sound l := by
  have hword := h.word
  have hflags : ∀ (kind : Op → Bool) (l : List Placed), (∀ p ∈ l, ∃ w, p.item = .word w) →
      last_apart kind none l = none := by
    intro kind l hl
    induction l with
    | nil => rfl
    | cons p l ih =>
      obtain ⟨⟨w, hw⟩, hrest⟩ := List.forall_mem_cons.mp hl
      obtain ⟨blanks, item⟩ := p
      obtain rfl : item = .word w := hw
      exact ih hrest
  have hapart : WordsApart l ∧ Harmless none l := by
    clear hflags h
    induction l with
    | nil => exact ⟨trivial, trivial⟩
    | cons p l ih =>
      obtain ⟨⟨w, hw⟩, hrest⟩ := List.forall_mem_cons.mp hword
      obtain ⟨hapart, hfiles⟩ := ih (fun q hq => hl q (List.mem_of_mem_tail hq)) hrest
      obtain ⟨blanks, item⟩ := p
      obtain rfl : item = .word w := hw
      exact ⟨⟨glued_words hl hrest, hapart⟩, hfiles⟩
  exact {
    apart := hapart.1
    files := hapart.2
    input := by rw [hflags _ l hword]; exact nofun
    output := by rw [hflags _ l hword]; exact nofun }

/-- The stage parser, with the builtins that it leaves the files to. -/
theorem execute_command_stage_iff (env : Environment) {stage : List Char} (s : Layout)
    (h : aliased env stage = text s.items s.last) :
    execute_command_stage env stage = names s.items ↔ Recognisable s.items := by
  have hparse := parse_eq_names_iff s
  rw [execute_command_stage, h]
  constructor
  · intro hrun
    split at hrun
    · rename_i hkept
      have hfiles : Fileless s.items :=
        ⟨(congrArg Run.infile hrun).symm, (congrArg Run.outfile hrun).symm⟩
      refine ⟨?_, Or.inl hfiles⟩
      have hargs : (parse_stage (text s.items s.last)).args = words s.items :=
        congrArg Run.args hrun
      have hshows := (parse_layout s).args.length_eq
      rw [hargs] at hshows
      have hle := follow_length_le s.items (o := .nothing) rfl 0
      have hpos : 0 < MAX_ARGS := by decide
      omega
    · rename_i hnot
      have hrecognised := hparse.mp hrun
      rw [hrun, not_or, Bool.not_eq_true] at hnot
      exact ⟨hrecognised.length_lt, Or.inr ⟨hnot.1, hnot.2,
        (recognised_iff hrecognised.length_lt).mpr hrecognised⟩⟩
  · rintro ⟨hroom, hfiles | ⟨hne, hbuiltin, hsound⟩⟩
    · have hrun := hparse.mpr ((hfiles.sound s.follows).recognised hroom)
      rw [hrun]
      split
      · exact Run.ext rfl hfiles.1.symm hfiles.2.symm
      · rfl
    · have hrun := hparse.mpr ((recognised_iff hroom).mp hsound)
      rw [hrun, if_neg]
      rw [not_or, Bool.not_eq_true]
      exact ⟨hne, hbuiltin⟩

/-! ## Builtins that stand alone -/

theorem takeWhile_name {w : List Char} (hw : IsName w) (y : List Char) :
    (w ++ y).takeWhile (! is_blank ·) = w ++ y.takeWhile (! is_blank ·) := by
  refine List.takeWhile_append_of_pos fun c hc => ?_
  rw [(plain_facts (hw.2 c hc)).1]
  rfl

/-- The first piece of a text that begins with a word. -/
theorem pieces_name {gap w : List Char} (hgap : IsGap gap) (hw : IsName w) (y : List Char) :
    pieces is_blank (gap ++ (w ++ y)) =
      (w ++ y.takeWhile (! is_blank ·)) ::
        pieces is_blank ((w ++ y).dropWhile (! is_blank ·)).tail := by
  rw [← pieces_dropWhile, dropWhile_name hgap hw]
  obtain ⟨c, w', rfl, hc⟩ := hw.head
  have hblank : ¬ is_blank c = true := by
    rw [(plain_facts hc).1]
    exact Bool.false_ne_true
  rw [← takeWhile_name hw y, List.cons_append]
  exact pieces_cons_of_neg hblank (w' ++ y)

theorem takeWhile_blank {y : List Char} (hy : ∀ c ∈ y.head?, is_blank c = true) :
    y.takeWhile (! is_blank ·) = [] := by
  cases y with
  | nil => rfl
  | cons b y =>
    refine List.takeWhile_cons_of_neg ?_
    rw [hy b rfl]
    exact Bool.false_ne_true

theorem pieces_word {gap w y : List Char} (hgap : IsGap gap) (hw : IsName w)
    (hy : ∀ c ∈ y.head?, is_blank c = true) :
    pieces is_blank (gap ++ (w ++ y)) = w :: pieces is_blank y := by
  have hdrop : (w ++ y).dropWhile (! is_blank ·) = y.dropWhile (! is_blank ·) := by
    refine List.dropWhile_append_of_pos fun c hc => ?_
    rw [(plain_facts (hw.2 c hc)).1]
    rfl
  rw [pieces_name hgap hw, hdrop, takeWhile_blank hy, List.append_nil]
  cases y with
  | nil => rfl
  | cons b y =>
    have hb : is_blank b = true := hy b rfl
    have hnot : ¬ (! is_blank b) = true := by
      rw [hb]
      exact Bool.false_ne_true
    rw [List.dropWhile_cons_of_neg (p := (! is_blank ·)) hnot, List.tail_cons,
      pieces_cons_of_pos hb]

theorem pieces_blanks {last : List Char} (hlast : IsGap last) : pieces is_blank last = [] := by
  rw [← pieces_dropWhile, List.dropWhile_eq_nil_iff.mpr hlast, pieces_nil]

/-- The words of a text without files. -/
theorem pieces_text {l : List Placed} {last : List Char} (hlast : IsGap last)
    (hhead : ∀ p ∈ l.head?, IsGap p.blanks ∧ p.item.Valid) (hl : ∀ p ∈ l.tail, p.Follows)
    (hw : ∀ p ∈ l, ∃ w, p.item = .word w) : pieces is_blank (text l last) = words l := by
  induction l with
  | nil => exact pieces_blanks hlast
  | cons p l ih =>
    obtain ⟨⟨w, hitem⟩, hrest⟩ := List.forall_mem_cons.mp hw
    obtain ⟨hgap, hvalid⟩ := hhead p rfl
    obtain ⟨blanks, item⟩ := p
    obtain rfl : item = .word w := hitem
    have hfirst : ∀ q ∈ l.head?, IsGap q.blanks ∧ q.item.Valid := fun q hq =>
      have hq := hl q (List.mem_of_mem_head? hq)
      ⟨hq.gap, hq.valid⟩
    have hwords : pieces is_blank (text l last) = words l :=
      ih hfirst (fun q hq => hl q (List.mem_of_mem_tail hq)) hrest
    rw [words_cons_word, ← hwords]
    refine pieces_word hgap hvalid ?_
    obtain ⟨-, hblank⟩ | ⟨hglued, op, q, hop⟩ := text_head hlast hl
    · exact hblank
    · exact absurd (glued_words hl hrest) (by rw [hglued]; exact nofun)

/-- A builtin that the shell finds in front of a text is its first word. -/
theorem first_word_text {s : Layout} {name : List Char}
    (h : (pieces is_blank (text s.items s.last)).head? = some name)
    (hname : ∀ c ∈ name, c ≠ '>' ∧ c ≠ '<') : (words s.items).head? = some name := by
  obtain ⟨items, last, valid, follows, gap⟩ := s
  cases items with
  | nil =>
    rw [text, pieces_blanks gap] at h
    exact nomatch h
  | cons p l =>
    obtain ⟨hgap, hvalid⟩ := valid p rfl
    obtain ⟨blanks, item⟩ := p
    cases item with
    | word w =>
      have hfirst : (pieces is_blank (blanks ++ (w ++ text l last))).head? = some name := h
      rw [pieces_name hgap hvalid, List.head?_cons, Option.some.injEq] at hfirst
      have hend : (text l last).takeWhile (! is_blank ·) = [] := by
        obtain ⟨-, hblank⟩ | ⟨-, op, q, hop⟩ := text_head (l := l) gap follows
        · exact takeWhile_blank hblank
        · obtain ⟨c, cs, hcs, hnot, hc⟩ := op.chars_head q
          rw [hop, hcs, List.takeWhile_cons_of_pos (by rw [hnot]; rfl)] at hfirst
          have hmem : c ∈ name := hfirst ▸ List.mem_append_right _ List.mem_cons_self
          exact absurd hc (not_or_intro (hname c hmem).1 (hname c hmem).2)
      rw [hend, List.append_nil] at hfirst
      exact congrArg some hfirst
    | redirect op gap' target =>
      obtain ⟨c, cs, hcs, hnot, hc⟩ := op.chars_head (gap' ++ target ++ text l last)
      have hfirst : (pieces is_blank (blanks ++ (op.chars ++ (gap' ++ target) ++
          text l last))).head? = some name := h
      rw [← pieces_dropWhile, List.append_assoc, dropWhile_op hgap, hcs,
        pieces_cons_of_neg (by rw [hnot]; exact Bool.false_ne_true), List.head?_cons,
        Option.some.injEq, List.takeWhile_cons_of_pos (by rw [hnot]; rfl)] at hfirst
      have hmem : c ∈ name := hfirst ▸ List.mem_cons_self
      exact absurd hc (not_or_intro (hname c hmem).1 (hname c hmem).2)

/-- The text that the words and the files of a stage are taken from. -/
def stage_text (env : Environment) : Place → List Char → List Char
  | .alone, stage => aliased env (timed env stage)
  | .piped, stage => aliased env stage

/-- **Redirections.** In a pipeline or alone, what is run with which files is what the layout
names exactly if it is recognisable. -/
theorem redirections_iff (env : Environment) (place : Place) {stage : List Char} (s : Layout)
    (h : stage_text env place stage = text s.items s.last) :
    execute_stage env place stage = names s.items ↔ Recognisable s.items := by
  cases place with
  | piped => exact execute_command_stage_iff env s h
  | alone =>
    have hchild := execute_command_stage_iff env s h
    show execute_alone env stage = _ ↔ _
    unfold execute_alone
    cases hfirst : first_word env stage with
    | none => exact hchild
    | some name =>
      dsimp only
      split
      · rename_i hname
        have hmem : name ∈ shell_names := List.contains_iff_mem.mp hname
        have htimed : timed env stage = stage := by
          rw [timed, if_neg]
          rw [hfirst, Option.some.injEq]
          rintro rfl
          exact absurd hmem (by decide)
        rw [stage_text, htimed] at h
        rw [first_word, h] at hfirst
        have hplain : ∀ c ∈ name, c ≠ '>' ∧ c ≠ '<' := by
          have hall : ∀ name ∈ shell_names, name.all (fun c => c != '>' && c != '<') = true := by
            decide
          intro c hc
          simpa using List.all_eq_true.mp (hall name hmem) c hc
        have hbuiltin : is_builtin (words s.items) = true := by
          obtain ⟨rest, hwords⟩ := List.head?_eq_some_iff.mp
            (first_word_text hfirst hplain)
          have hknown : ∀ name ∈ shell_names, builtins.contains name = true := by decide
          rw [hwords, is_builtin, hknown name hmem, Bool.true_or]
        rw [h]
        constructor
        · intro hrun
          have hargs := congrArg (List.length ∘ Run.args) hrun
          have hle := List.length_take_le (MAX_ARGS - 1) (pieces is_blank (text s.items s.last))
          have hpos : 0 < MAX_ARGS := by decide
          have hlen : (words s.items).length =
              ((pieces is_blank (text s.items s.last)).take (MAX_ARGS - 1)).length := hargs.symm
          exact ⟨by omega, Or.inl
            ⟨(congrArg Run.infile hrun).symm, (congrArg Run.outfile hrun).symm⟩⟩
        · rintro ⟨hroom, hfiles | ⟨-, hnot, -⟩⟩
          · rw [pieces_text s.gap s.valid s.follows hfiles.word,
              List.take_of_length_le (by omega)]
            exact Run.ext rfl hfiles.1.symm hfiles.2.symm
          · exact absurd (hnot.symm.trans hbuiltin) Bool.false_ne_true
      · exact hchild

/-! ### `ls` with a file for its output -/

def quiet : Environment := ⟨fun _ => none, 0, []⟩

/-- `ls`, blanks, `>`, blanks, `out` -/
def listing (blanks gap : List Char) (h : IsGap blanks) (hgap : IsGap gap) : Layout where
  items := [⟨[], .word "ls".toList⟩, ⟨blanks, .redirect .out gap "out".toList⟩]
  last := []
  valid := fun p hp => by
    obtain rfl := Option.some.inj hp
    exact ⟨fun c hc => absurd hc List.not_mem_nil, by decide, List.all_eq_true.mp rfl⟩
  follows := fun p hp => by
    obtain rfl := List.mem_singleton.mp hp
    exact ⟨h, ⟨hgap, by decide, List.all_eq_true.mp rfl⟩, fun w hw => nomatch hw⟩
  gap := fun c hc => absurd hc List.not_mem_nil

def spaced : Layout := listing [' '] [' '] (List.all_eq_true.mp rfl) (List.all_eq_true.mp rfl)

def tight : Layout := listing [] [] (List.all_eq_true.mp rfl) (List.all_eq_true.mp rfl)

/-- `ls > out` -/
theorem redirections_spaced : execute_stage quiet .piped "ls > out".toList = names spaced.items :=
  (redirections_iff quiet .piped spaced (by decide)).mpr {
    room := by decide
    files := Or.inr ⟨by decide, by decide, Or.inl {
      apart := ⟨rfl, trivial⟩
      files := ⟨Or.inl nofun, trivial⟩
      input := by decide
      output := by decide }⟩ }

/-- `ls>out`, and a builtin that stands alone. -/
theorem redirections_lost :
    (stage_text quiet .piped "ls>out".toList = text tight.items tight.last ∧
      execute_stage quiet .piped "ls>out".toList =
        ⟨["ls>out".toList], none, some ("out".toList, false)⟩ ∧
      names tight.items = ⟨["ls".toList], none, some ("out".toList, false)⟩) ∧
    execute_stage quiet .alone "echo > out".toList =
      ⟨["echo".toList, ">".toList, "out".toList], none, none⟩ := by
  decide

end SysInC.Lsh
