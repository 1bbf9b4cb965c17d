/-
The indentation tokens of the tokenizer balance.

An open level is one that an INDENT opened: it stands on `indents`, or it is counted in
`pending_dedents` until its DEDENT is out (`open_levels`). Each token changes the number of open
levels by what it is, and the end of the source is delivered when there is none.
-/
import SysInC.PythontAst

set_option autoImplicit false

namespace SysInC.Pythont

/-! ## The tokens of a source -/

/-- The tokenizer after `n` tokens. -/
def lexer_after (source : List Char) : ℕ → lexer_t
  | 0 => lexer_init source
  | n + 1 => (lexer_token (lexer_after source n)).2

def token_at (source : List Char) (n : ℕ) : token_t := (lexer_token (lexer_after source n)).1

/-- The first `n` tokens. -/
def tokens (source : List Char) (n : ℕ) : List token_t := (List.range n).map (token_at source)

def token_t.is (type : token_type_t) (t : token_t) : Bool := decide (t.type = type)

/-- A token that stands for something in a line. -/
def token_type_t.in_line : token_type_t → Bool
  | .TOK_INDENT | .TOK_DEDENT | .TOK_EOF => false
  | _ => true

/-- `indent_stack` increases strictly from the 0 at its bottom, and `indent_top` is in the array. -/
structure IndentsOk (l : lexer_t) : Prop where
  sorted : (l.indents ++ [0]).Pairwise (· > ·)
  room : l.indents.length < MAX_INDENTS

/-- The levels without their DEDENT. -/
def open_levels (l : lexer_t) : ℕ := l.indents.length + l.pending_dedents

/-! ## One token -/

variable {l l' l'' : lexer_t} {token : token_t}

/-- What a token does to the levels. -/
structure Booked (l : lexer_t) (token : token_t) (l' : lexer_t) : Prop where
  indents : IndentsOk l'
  levels : open_levels l' + (token.is .TOK_DEDENT).toNat
    = open_levels l + (token.is .TOK_INDENT).toNat
  eof : token.type = .TOK_EOF → open_levels l = 0

/-- What a part of `lexer_next` does to them. -/
def scan_t.Books (l : lexer_t) : scan_t → Prop
  | .emit token l' => token.type ≠ .TOK_ERROR → Booked l token l'
  | .again l' | .proceed l' => l'.indents = l.indents ∧ l'.pending_dedents = l.pending_dedents

theorem IndentsOk.of_same (h : IndentsOk l) (hind : l'.indents = l.indents) : IndentsOk l' :=
  ⟨by rw [hind]; exact h.sorted, by rw [hind]; exact h.room⟩

/-- It leaves the levels alone. -/
theorem booked_of_line (h : IndentsOk l) (hind : l'.indents = l.indents)
    (hpend : l'.pending_dedents = l.pending_dedents)
    (htype : token.type.in_line = true) : Booked l token l' := by
  have hnot {type : token_type_t} (hline : type.in_line = false) : token.type ≠ type := by
    rintro rfl
    rw [htype] at hline
    cases hline
  refine ⟨h.of_same hind, ?_, fun heof => absurd heof (hnot rfl)⟩
  rw [open_levels, open_levels, hind, hpend, token_t.is, token_t.is, decide_eq_false (hnot rfl),
    decide_eq_false (hnot rfl)]

theorem Takes.booked (h : Takes l l') (hl : IndentsOk l)
    (htype : token.type.in_line = true) : Booked l token l' :=
  booked_of_line hl h.indents h.pending htype

/-- A deeper level than all others. -/
theorem IndentsOk.push (h : IndentsOk l) {indent : ℕ} (hdeep : l.indents.headD 0 < indent)
    (hroom : l.indents.length + 1 < MAX_INDENTS) (hind : l'.indents = indent :: l.indents) :
    IndentsOk l' := by
  constructor
  · rw [hind, List.cons_append, List.pairwise_cons]
    refine ⟨fun level hlevel => ?_, h.sorted⟩
    cases htop : l.indents with
    | nil =>
        rw [htop, List.nil_append, List.mem_singleton] at hlevel
        rw [htop] at hdeep
        rw [hlevel]
        exact hdeep
    | cons top rest =>
        have hsorted := h.sorted
        rw [htop, List.cons_append, List.pairwise_cons] at hsorted
        rw [htop] at hdeep
        rw [htop, List.cons_append, List.mem_cons] at hlevel
        rcases hlevel with rfl | hlevel
        · exact hdeep
        · exact (hsorted.1 level hlevel).trans hdeep
  · rw [hind, List.length_cons]
    exact hroom

theorem IndentsOk.of_suffix (h : IndentsOk l) (hsuf : l'.indents <:+ l.indents) :
    IndentsOk l' := by
  refine ⟨h.sorted.sublist ?_, hsuf.length_le.trans_lt h.room⟩
  exact List.Sublist.append hsuf.sublist (List.Sublist.refl [0])

theorem lexer_dedent_suffix (indent : ℕ) (indents : List ℕ) (pending : ℕ) :
    (lexer_dedent indent indents pending).1 <:+ indents := by
  induction indents generalizing pending with
  | nil => exact List.suffix_rfl
  | cons top indents ih =>
      rw [lexer_dedent]
      split_ifs
      · exact (ih (pending + 1)).trans (List.suffix_cons top indents)
      · exact List.suffix_rfl

/-- Below the current level, at least one is closed. -/
theorem lexer_dedent_pos {indent : ℕ} {indents : List ℕ} (pending : ℕ)
    (h : indent < indents.headD 0) : pending < (lexer_dedent indent indents pending).2 := by
  have hle (indents : List ℕ) (pending : ℕ) :
      pending ≤ (lexer_dedent indent indents pending).2 := by
    induction indents generalizing pending with
    | nil => exact le_rfl
    | cons top indents ih =>
        rw [lexer_dedent]
        split_ifs
        · exact (Nat.le_succ pending).trans (ih (pending + 1))
        · exact le_rfl
  cases indents with
  | nil => exact absurd h (Nat.not_lt_zero indent)
  | cons top indents =>
      rw [List.headD_cons] at h
      rw [lexer_dedent, if_pos h]
      exact hle indents (pending + 1)

theorem lexer_line_start_books (hl : IndentsOk l) (hpend : l.pending_dedents = 0) :
    (lexer_line_start l).Books l := by
  have htakes := lexer_indent_takes l.rest.length 0 l
  unfold lexer_line_start
  rcases hindent : lexer_indent l.rest.length 0 l with ⟨indent, l1⟩
  rw [hindent] at htakes
  obtain ⟨-, hind, hpend1⟩ := htakes
  rw [hpend] at hpend1
  dsimp only at hind hpend1 ⊢
  split_ifs with hcomment hnewline hdeeper hfull hless hinvalid hdedent
  · have hskip := lexer_skip_takes not_eol l1.rest.length l1
    exact ⟨hskip.indents.trans hind, hskip.pending.trans (hpend1.trans hpend.symm)⟩
  · intro _
    have hadvance := lexer_advance_takes l1
    exact booked_of_line hl (hadvance.indents.trans hind)
      (hadvance.pending.trans (hpend1.trans hpend.symm)) rfl
  · exact fun herror => absurd rfl herror
  · -- a level is opened
    intro _
    rw [hind] at hdeeper hfull
    refine ⟨hl.push hdeeper (Nat.not_le.mp hfull) (by rw [hind]), ?_, fun heof => by cases heof⟩
    simp only [open_levels, hind, hpend1, hpend, List.length_cons, token_t.is, lexer_make_token]
    rfl
  · exact fun herror => absurd rfl herror
  · -- levels are closed, and the first of their tokens is this one
    intro _
    have hsum := lexer_dedent_sum indent l1.indents l1.pending_dedents
    have hsuf := lexer_dedent_suffix indent l1.indents l1.pending_dedents
    refine ⟨hl.of_suffix (by rw [← hind]; exact hsuf), ?_, fun heof => by cases heof⟩
    simp only [open_levels, token_t.is, lexer_make_token]
    rw [hind, hpend1] at hsum hdedent ⊢
    rw [hpend]
    show _ + 1 = _ + 0
    omega
  · -- there is at least one
    have hpos := lexer_dedent_pos l1.pending_dedents hless
    omega
  · exact ⟨hind, hpend1.trans hpend.symm⟩

theorem lexer_read_name_books (hl : IndentsOk l) (hsame : Takes l l') :
    Booked l (lexer_read_name l').1 (lexer_read_name l').2 := by
  refine (hsame.trans (lexer_take_takes _ _ _ _)).booked hl ?_
  unfold lexer_read_name
  dsimp only [lexer_make_token]
  split_ifs
  · rfl
  · rfl

theorem lexer_read_number_books (hl : IndentsOk l) (hsame : Takes l l') :
    Booked l (lexer_read_number l').1 (lexer_read_number l').2 := by
  have htakes := hsame.trans (lexer_number_takes l')
  unfold lexer_read_number
  generalize lexer_number l' = r at htakes ⊢
  obtain ⟨is_float, text, l2⟩ := r
  refine htakes.booked hl ?_
  dsimp only [lexer_make_token]
  split_ifs
  · rfl
  · rfl

theorem lexer_read_string_books (hl : IndentsOk l) (hsame : Takes l l') :
    Booked l (lexer_read_string l').1 (lexer_read_string l').2 := by
  have hquoted := lexer_quoted_takes (lexer_peek l' 0) (l'.rest.length + 1) [] (lexer_advance l')
  have hall := hsame.trans ((lexer_advance_takes l').trans hquoted)
  unfold lexer_read_string lexer_read_quoted
  generalize lexer_quoted (lexer_peek l' 0) (l'.rest.length + 1) [] (lexer_advance l') = r at hall ⊢
  rcases r with ⟨_ | text, l2⟩
  · exact hall.booked hl rfl
  · exact hall.booked hl rfl

theorem lexer_read_operator_takes (l : lexer_t) : Takes l (lexer_read_operator l).2 :=
  (lexer_advance_takes l).trans ((lexer_advance_if_takes _ _).trans (lexer_advance_if_takes _ _))

theorem lexer_read_operator_books (hl : IndentsOk l) (hsame : Takes l l') :
    Booked l (lexer_read_operator l').1 (lexer_read_operator l').2 := by
  refine (hsame.trans (lexer_read_operator_takes l')).booked hl ?_
  unfold lexer_read_operator
  dsimp only [lexer_make_token]
  split_ifs
  · rfl
  · rfl

theorem lexer_scan_books (hl : IndentsOk l) (hpend : l.pending_dedents = 0) :
    (lexer_scan l).Books l := by
  unfold lexer_scan
  have htakes := lexer_skip_takes (fun c => is_space c || c == '\r') l.rest.length l
  generalize lexer_skip (fun c => is_space c || c == '\r') l.rest.length l = l1 at htakes
  dsimp only
  by_cases hend : lexer_peek l1 0 = '\x00'
  · rw [if_pos hend]
    have hpend1 := htakes.pending.trans hpend
    cases hind : l1.indents with
    | nil =>
        intro _
        refine ⟨hl.of_same htakes.indents, ?_, fun _ => ?_⟩
        · rw [open_levels, open_levels, htakes.indents, htakes.pending]
          rfl
        · rw [open_levels, ← htakes.indents, hind, hpend]
          rfl
    | cons top indents =>
        intro _
        have hsuf : indents <:+ l.indents := by
          rw [← htakes.indents, hind]
          exact List.suffix_cons top indents
        refine ⟨hl.of_suffix hsuf, ?_, fun heof => by cases heof⟩
        rw [open_levels, open_levels, ← htakes.indents, hind, hpend1, hpend, List.length_cons]
        rfl
  rw [if_neg hend]
  split_ifs with hcomment hnewline hname hnumber hstring
  · have hskip := htakes.trans (lexer_skip_takes not_eol l1.rest.length l1)
    exact ⟨hskip.indents, hskip.pending⟩
  · intro _
    have hadvance := htakes.trans (lexer_advance_takes l1)
    exact booked_of_line hl hadvance.indents hadvance.pending rfl
  · exact fun _ => lexer_read_name_books hl htakes
  · exact fun _ => lexer_read_number_books hl htakes
  · exact fun _ => lexer_read_string_books hl htakes
  · exact fun _ => lexer_read_operator_books hl htakes

/-- **One token.** -/
theorem lexer_next_books {fuel : ℕ} (hfuel : l.rest.length < fuel) (hl : IndentsOk l)
    (hclean : (lexer_next fuel l).1.type ≠ .TOK_ERROR) :
    Booked l (lexer_next fuel l).1 (lexer_next fuel l).2 := by
  induction fuel generalizing l with
  | zero => exact absurd hfuel (Nat.not_lt_zero _)
  | succ fuel ih =>
      rw [lexer_next] at hclean ⊢
      by_cases hpending : 0 < l.pending_dedents
      · rw [if_pos hpending]
        refine ⟨hl.of_same rfl, ?_, fun heof => by cases heof⟩
        show l.indents.length + (l.pending_dedents - 1) + 1 = open_levels l + 0
        rw [open_levels]
        omega
      rw [if_neg hpending] at hclean ⊢
      have hpend : l.pending_dedents = 0 := Nat.eq_zero_of_not_pos hpending
      -- the call behind a comment starts with the same levels and less to read
      have hagain (l2 : lexer_t) (hlt : l2.rest.length < l.rest.length)
          (hsame : l2.indents = l.indents ∧ l2.pending_dedents = l.pending_dedents)
          (hclean : (lexer_next fuel l2).1.type ≠ .TOK_ERROR) :
          Booked l (lexer_next fuel l2).1 (lexer_next fuel l2).2 := by
        obtain ⟨hindents, hlevels, heof⟩ :=
          ih (hlt.trans_le (Nat.le_of_lt_succ hfuel)) (hl.of_same hsame.1) hclean
        have hopen : open_levels l2 = open_levels l := by
          rw [open_levels, open_levels, hsame.1, hsame.2]
        rw [hopen] at hlevels heof
        exact ⟨hindents, hlevels, heof⟩
      have hstart : (if l.at_line_start then lexer_line_start l else .proceed l).Books l := by
        split_ifs
        · exact lexer_line_start_books hl hpend
        · exact ⟨rfl, rfl⟩
      have hadvances := lexer_start_advances l
      generalize (if l.at_line_start then lexer_line_start l else scan_t.proceed l) = first
        at hstart hadvances hclean ⊢
      rcases first with ⟨token, l2⟩ | l2 | l2
      · exact hstart hclean
      · exact hagain l2 hadvances.2 hstart hclean
      · have hscan := lexer_scan_books (hl.of_same hstart.1) (hstart.2.trans hpend)
        have hadvances' := lexer_scan_advances l2
        have hends := lexer_scan_ends l2
        have hopen : open_levels l2 = open_levels l := by
          rw [open_levels, open_levels, hstart.1, hstart.2]
        dsimp only at hclean ⊢
        generalize lexer_scan l2 = second at hscan hadvances' hends hclean ⊢
        rcases second with ⟨token, l3⟩ | l3 | l3
        · obtain ⟨hindents, hlevels, heof⟩ := hscan hclean
          rw [hopen] at hlevels heof
          exact ⟨hindents, hlevels, heof⟩
        · exact hagain l3 (hadvances'.2.trans_le hadvances.2)
            ⟨hscan.1.trans hstart.1, hscan.2.trans hstart.2⟩ hclean
        · exact absurd rfl (hends l3)

/-! ## All tokens -/

variable {source : List Char} {n : ℕ}

theorem init_indents (source : List Char) : IndentsOk (lexer_init source) :=
  ⟨List.pairwise_singleton _ _, Nat.succ_pos 63⟩

theorem countP_tokens_succ (p : token_t → Bool) :
    (tokens source (n + 1)).countP p
      = (tokens source n).countP p + (p (token_at source n)).toNat := by
  rw [tokens, List.range_succ, List.map_append, List.countP_append, List.map_singleton,
    List.countP_singleton, ← tokens]
  cases p (token_at source n) with
  | true => rfl
  | false => rfl

/-- The levels that are open are those of the tokens so far. -/
theorem tokens_booked (hclean : ∀ k < n, (token_at source k).type ≠ .TOK_ERROR) :
    IndentsOk (lexer_after source n)
      ∧ open_levels (lexer_after source n) + (tokens source n).countP (token_t.is .TOK_DEDENT)
        = (tokens source n).countP (token_t.is .TOK_INDENT) := by
  induction n with
  | zero => exact ⟨init_indents source, rfl⟩
  | succ n ih =>
      obtain ⟨hindents, hcount⟩ := ih fun k hk => hclean k (hk.trans (Nat.lt_succ_self n))
      obtain ⟨hindents', hlevels, -⟩ :=
        lexer_next_books (Nat.lt_succ_self _) hindents (hclean n (Nat.lt_succ_self n))
      refine ⟨hindents', ?_⟩
      rw [countP_tokens_succ, countP_tokens_succ]
      have hbook : open_levels (lexer_after source (n + 1))
            + (token_t.is .TOK_DEDENT (token_at source n)).toNat
          = open_levels (lexer_after source n)
            + (token_t.is .TOK_INDENT (token_at source n)).toNat := hlevels
      omega

/-- **Indentation balances.** As long as no token is an error: no prefix has more DEDENTs than
INDENTs, the stack of levels is sorted and within its array, and at the end of the source the
two are equally many. -/
theorem indentation_balances (source : List Char) (n : ℕ)
    (hclean : ∀ k < n, (token_at source k).type ≠ .TOK_ERROR) :
    (∀ k ≤ n, (tokens source k).countP (token_t.is .TOK_DEDENT)
        ≤ (tokens source k).countP (token_t.is .TOK_INDENT)
      ∧ IndentsOk (lexer_after source k))
    ∧ ((token_at source n).type = .TOK_EOF →
      (tokens source n).countP (token_t.is .TOK_DEDENT)
        = (tokens source n).countP (token_t.is .TOK_INDENT)) := by
  constructor
  · intro k hk
    obtain ⟨hindents, hcount⟩ := tokens_booked fun j hj => hclean j (hj.trans_le hk)
    exact ⟨by omega, hindents⟩
  · intro heof
    obtain ⟨hindents, hcount⟩ := tokens_booked hclean
    have hnot : (token_at source n).type ≠ .TOK_ERROR := by
      rw [heof]
      exact token_type_t.noConfusion
    have hbooked := lexer_next_books (Nat.lt_succ_self _) hindents hnot
    have hopen := hbooked.eof heof
    omega

/-- Two levels, with a comment and an empty line in between, closed by the end of the source. -/
def nested_source : List Char := "if a:\n  if b:\n # c\n\n\t c".toList

theorem indentation_balances_nested :
    (token_at nested_source 15).type = .TOK_EOF
      ∧ (tokens nested_source 15).countP (token_t.is .TOK_INDENT) = 2
      ∧ (tokens nested_source 15).countP (token_t.is .TOK_DEDENT) = 2 := by
  have heof : (token_at nested_source 15).type = .TOK_EOF := by decide
  have hclean : ∀ k < 15, (token_at nested_source k).type ≠ .TOK_ERROR := by decide
  have hopened : (tokens nested_source 15).countP (token_t.is .TOK_INDENT) = 2 := by
    decide
  exact ⟨heof, hopened, ((indentation_balances nested_source 15 hclean).2 heof).trans hopened⟩

end SysInC.Pythont
