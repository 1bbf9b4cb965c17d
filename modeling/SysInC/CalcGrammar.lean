/-
The lexemes of an input, and which lists of them are well-formed expressions: operands with signs,
binary operators between them, and brackets that close with their own kind. `WellFormed` is the
grammar; `expects` decides it from left to right.
-/
import SysInC.CalcSyntax

set_option autoImplicit false

namespace SysInC.Calc

/-! ## Lexemes -/

/-- A token with the character that it begins with, which tells the kinds of brackets apart. -/
abbrev Lexeme := Tok × Char

def lex_loop : ℕ → List Char → Option (List Lexeme)
  | 0, p => if p.dropWhile is_blank = [] then some [] else none
  | n + 1, p =>
      match p.dropWhile is_blank with
      | [] => some []
      | c :: q => (read_token (c :: q)).bind fun r => (lex_loop n r.2).map ((r.1, c) :: ·)

/-- The lexemes of an input; none when a symbol is invalid. -/
def lexemes (input_str : List Char) : Option (List Lexeme) :=
  lex_loop input_str.length input_str

def tokens (ls : List Lexeme) : List Tok := ls.map Prod.fst

theorem digit_of_isdigit {c : Char} (h : isdigit c = true) : digit_of 10 c = true := by
  simp only [digit_of, isdigit, char_le_iff] at *
  simp at h ⊢
  omega

/-- A numeral has a digit at least. -/
theorem strtod_end_pos {p : List Char} (h : starts_number p = true) : 0 < strtod_end p := by
  rw [strtod_end_eq]
  cases p with
  | nil => exact nomatch h
  | cons c p =>
      rw [starts_number, Bool.or_eq_true] at h
      obtain hdigit | hdot := h
      · have hcount : 0 < count_digits 10 (c :: p) := by
          rw [count_digits, List.takeWhile_cons_of_pos (digit_of_isdigit hdigit)]
          exact Nat.succ_pos _
        omega
      · rw [Bool.and_eq_true, beq_iff_eq] at hdot
        obtain rfl := hdot.1
        have hcount : count_digits 10 ('.' :: p) = 0 := rfl
        rw [hcount, List.drop_zero, frac_end]
        omega

theorem number_end_pos {p : List Char} (h : starts_number p = true) : 0 < number_end p := by
  unfold number_end
  split
  · split
    · omega
    · exact strtod_end_pos h
  · exact strtod_end_pos h

theorem read_op_length {p : List Char} {r : BinOp × List Char} (h : read_op p = some r) :
    r.2.length < p.length := by
  unfold read_op at h
  split at h <;> grind

theorem read_name_length {c : Char} (hc : is_word c = true) (q : List Char) :
    (read_name (c :: q)).2.length < (c :: q).length := by
  have htake : 0 < (((c :: q).takeWhile is_word).take 31).length := by
    rw [List.takeWhile_cons_of_pos hc, List.take_succ_cons]
    exact Nat.succ_pos _
  have hdrop := (List.dropWhile_suffix (· == ' ')
    (l := (c :: q).drop (((c :: q).takeWhile is_word).take 31).length)).length_le
  rw [List.length_drop] at hdrop
  unfold read_name
  dsimp only
  split
  · rename_i heq
    rw [heq, List.length_cons] at hdrop
    exact Nat.lt_of_lt_of_le (Nat.lt_of_succ_le hdrop) (Nat.sub_le _ _)
  · exact hdrop.trans_lt (Nat.sub_lt (Nat.succ_pos _) htake)

/-- Each token takes a character at least. -/
theorem read_token_length {p : List Char} {r : Tok × List Char} (h : read_token p = some r) :
    r.2.length < p.length := by
  unfold read_token at h
  split at h
  · rename_i hnum
    have hpos := number_end_pos hnum
    have hne : 0 < p.length := by
      cases p with
      | nil => exact nomatch hnum
      | cons c p => exact Nat.succ_pos _
    rw [← Option.some.inj h, List.length_drop]
    omega
  · cases p with
    | nil => exact nomatch h
    | cons c q =>
        dsimp only at h
        split at h
        · rename_i hname
          have hword : is_word c = true := by
            rw [Bool.or_eq_true] at hname
            rw [is_word, isalnum, Bool.or_eq_true, Bool.or_eq_true]
            exact hname.imp Or.inr id
          exact (Option.some.inj h) ▸ read_name_length hword q
        split at h
        · exact (Option.some.inj h) ▸ Nat.lt_succ_self _
        split at h
        · exact (Option.some.inj h) ▸ Nat.lt_succ_self _
        · obtain ⟨s, hs, rfl⟩ := Option.map_eq_some_iff.mp h
          exact read_op_length hs

section

variable {V : Type}

theorem evaluate_loop_blank (A : Arith V) (m : ℕ) {p : List Char} (hp : p.dropWhile is_blank = [])
    (st : State V) : evaluate_loop A m p st = finish A st := by
  cases m with
  | zero => rfl
  | succ m => rw [evaluate_loop, hp]

/-- The loop takes one lexeme after the other. -/
theorem evaluate_loop_lexemes (A : Arith V) (n : ℕ) {m : ℕ} {p : List Char} (hn : p.length ≤ n)
    (hm : p.length ≤ m) (st : State V) :
    (∀ ls, lex_loop n p = some ls →
      evaluate_loop A m p st = ((tokens ls).foldlM (on_token A) st).bind (finish A)) ∧
    (lex_loop n p = none → ∀ v, evaluate_loop A m p st ≠ .ok v) := by
  induction n generalizing m p st with
  | zero =>
      obtain rfl := List.eq_nil_of_length_eq_zero (Nat.le_zero.mp hn)
      refine ⟨fun ls hls => ?_, fun h => absurd h (Option.some_ne_none _)⟩
      obtain rfl := Option.some.inj hls
      exact evaluate_loop_blank A m rfl st
  | succ n ih =>
      rw [lex_loop]
      cases hp : p.dropWhile is_blank with
      | nil =>
          refine ⟨fun ls hls => ?_, fun h => absurd h (Option.some_ne_none _)⟩
          obtain rfl := Option.some.inj hls
          exact evaluate_loop_blank A m hp st
      | cons c q =>
          have hlen : (c :: q).length ≤ p.length := hp ▸ (List.dropWhile_suffix is_blank).length_le
          obtain ⟨m, rfl⟩ : ∃ m', m = m' + 1 :=
            Nat.exists_eq_succ_of_ne_zero (by rw [List.length_cons] at hlen; omega)
          rw [evaluate_loop, hp]
          dsimp only
          cases hread : read_token (c :: q) with
          | none =>
              constructor
              · intro ls hls
                cases hls
              · intro _ v hv
                cases hv
          | some r =>
              -- a token has a character, so that the steps suffice for the rest
              have hless := read_token_length hread
              have hnext : ∀ st', _ := fun st' => ih (m := m) (p := r.2) (by omega) (by omega) st'
              show (∀ ls, (lex_loop n r.2).map _ = some ls → (on_token A st r.1).bind _ = _) ∧
                ((lex_loop n r.2).map _ = none → ∀ v, (on_token A st r.1).bind _ ≠ _)
              cases hstep : on_token A st r.1 with
              | error e =>
                  refine ⟨fun ls hls => ?_, fun _ v hv => ?_⟩
                  · obtain ⟨ls, -, rfl⟩ := Option.map_eq_some_iff.mp hls
                    show _ = ((on_token A st r.1).bind _).bind _
                    rw [hstep]
                    rfl
                  · cases hv
              | ok st' =>
                  refine ⟨fun ls hls => ?_, fun hnone =>
                    (hnext st').2 (Option.map_eq_none_iff.mp hnone)⟩
                  obtain ⟨ls, hrest, rfl⟩ := Option.map_eq_some_iff.mp hls
                  show evaluate_loop A m r.2 st' = ((on_token A st r.1).bind _).bind _
                  rw [hstep, (hnext st').1 ls hrest]
                  rfl

end

/-! ## The grammar -/

/-- The closing bracket for an opening one. -/
def closer : Char → Char
  | '[' => ']'
  | '{' => '}'
  | _ => ')'

inductive WellFormed : List Lexeme → Prop where
  | num (numeral : List Char) (c : Char) : WellFormed [(.num numeral, c)]
  | var (name : List Char) (c : Char) : WellFormed [(.var name, c)]
  | group (o : Char) {e : List Lexeme} (he : WellFormed e) :
      WellFormed ((.lparen, o) :: (e ++ [(.rparen, closer o)]))
  | call (name : List Char) (c : Char) {e : List Lexeme} (he : WellFormed e) :
      WellFormed ((.func name, c) :: (e ++ [(.rparen, ')')]))
  | sign {o : BinOp} (ho : o = .plus ∨ o = .minus) (c : Char) {e : List Lexeme}
      (he : WellFormed e) : WellFormed ((.op o, c) :: e)
  | binary (o : BinOp) (c : Char) {l r : List Lexeme} (hl : WellFormed l) (hr : WellFormed r) :
      WellFormed (l ++ (.op o, c) :: r)

/-- One lexeme of a well-formed expression: whether an operand is expected, and the brackets that
are to be closed. -/
def expects : Bool × List Char → Lexeme → Option (Bool × List Char)
  | (true, cs), (.num _, _) => some (false, cs)
  | (true, cs), (.var _, _) => some (false, cs)
  | (true, cs), (.func _, _) => some (true, ')' :: cs)
  | (true, cs), (.lparen, o) => some (true, closer o :: cs)
  | (true, cs), (.op o, _) => if o = .plus ∨ o = .minus then some (true, cs) else none
  | (false, cs), (.op _, _) => some (true, cs)
  | (false, d :: cs), (.rparen, c) => if c = d then some (false, cs) else none
  | _, _ => none

theorem WellFormed.expected {e : List Lexeme} (h : WellFormed e) (cs : List Char) :
    e.foldlM expects (true, cs) = some (false, cs) := by
  induction h generalizing cs with
  | num numeral c => rfl
  | var name c => rfl
  | group o he ih =>
      show List.foldlM expects (true, closer o :: cs) (_ ++ _) = _
      rw [List.foldlM_append, ih]
      have hclose : expects (false, closer o :: cs) (.rparen, closer o) = some (false, cs) :=
        if_pos rfl
      show (expects (false, closer o :: cs) (.rparen, closer o)).bind _ = _
      rw [hclose]
      rfl
  | call name c he ih =>
      show List.foldlM expects (true, ')' :: cs) (_ ++ _) = _
      rw [List.foldlM_append, ih]
      rfl
  | sign ho c he ih =>
      have hsign : expects (true, cs) (.op _, c) = some (true, cs) := if_pos ho
      rw [List.foldlM_cons, hsign]
      exact ih cs
  | binary o c hl hr ihl ihr =>
      rw [List.foldlM_append, ihl]
      exact ihr cs

/-- What can be put in front of an expression. -/
def Opens (ls : List Lexeme) : Prop := ∀ e, WellFormed e → WellFormed (ls ++ e)

/-- What has been read with these brackets to be closed: inside of the innermost it is `P`, and
outside of it is what an expression and the closing bracket complete. -/
def Around (P : List Lexeme → Prop) : List Char → List Lexeme → Prop
  | [], ls => P ls
  | d :: cs, ls => ∃ outer inner, ls = outer ++ inner ∧ P inner ∧
      ∀ e, WellFormed e → Around WellFormed cs (outer ++ (e ++ [(.rparen, d)]))

theorem Around.append {P Q : List Lexeme → Prop} {cs : List Char} {ls tail : List Lexeme}
    (h : Around P cs ls) (hPQ : ∀ inner, P inner → Q (inner ++ tail)) :
    Around Q cs (ls ++ tail) := by
  cases cs with
  | nil => exact hPQ ls h
  | cons d cs =>
      obtain ⟨outer, inner, rfl, hinner, hclose⟩ := h
      exact ⟨outer, inner ++ tail, List.append_assoc _ _ _, hPQ inner hinner, hclose⟩

theorem Opens.append {ls tail : List Lexeme} (h : Opens ls)
    (htail : ∀ e, WellFormed e → WellFormed (tail ++ e)) : Opens (ls ++ tail) := by
  intro e he
  rw [List.append_assoc]
  exact h _ (htail e he)

/-- An opening bracket, or a function. -/
theorem Around.enter {cs : List Char} {ls : List Lexeme} (h : Around Opens cs ls) {l : Lexeme}
    {d : Char} (hl : ∀ e, WellFormed e → WellFormed (l :: (e ++ [(.rparen, d)]))) :
    Around Opens (d :: cs) (ls ++ [l]) := by
  refine ⟨ls ++ [l], [], (List.append_nil _).symm, fun e he => he, fun e he => ?_⟩
  rw [List.append_assoc]
  exact h.append fun inner hinner => hinner _ (hl e he)

/-- What is read so far, by what is expected next. -/
def ReadSo : Bool × List Char → List Lexeme → Prop
  | (true, cs) => Around Opens cs
  | (false, cs) => Around WellFormed cs

theorem ReadSo.step {s s' : Bool × List Char} {ls : List Lexeme} (h : ReadSo s ls) {l : Lexeme}
    (hl : expects s l = some s') : ReadSo s' (ls ++ [l]) := by
  unfold expects at hl
  split at hl
  · rw [← Option.some.inj hl]
    exact h.append fun inner hinner => hinner _ (.num _ _)
  · rw [← Option.some.inj hl]
    exact h.append fun inner hinner => hinner _ (.var _ _)
  · rw [← Option.some.inj hl]
    exact h.enter fun e he => .call _ _ he
  · rw [← Option.some.inj hl]
    exact h.enter fun e he => .group _ he
  · split at hl
    · rename_i ho
      rw [← Option.some.inj hl]
      exact h.append fun inner hinner => Opens.append hinner fun e he => .sign ho _ he
    · exact nomatch hl
  · rw [← Option.some.inj hl]
    refine h.append fun inner hinner e he => ?_
    rw [List.append_assoc]
    exact .binary _ _ hinner he
  · split at hl
    · rename_i hc
      rw [← Option.some.inj hl, hc]
      obtain ⟨outer, inner, rfl, hinner, hclose⟩ := h
      rw [List.append_assoc]
      exact hclose inner hinner
    · exact nomatch hl
  · exact nomatch hl

theorem ReadSo.run {s s' : Bool × List Char} {ls : List Lexeme} (h : ReadSo s ls)
    {rest : List Lexeme} (hrest : rest.foldlM expects s = some s') : ReadSo s' (ls ++ rest) := by
  induction rest generalizing s ls with
  | nil =>
      rw [← Option.some.inj hrest, List.append_nil]
      exact h
  | cons l rest ih =>
      obtain ⟨s₁, hl, hrest⟩ := Option.bind_eq_some_iff.mp hrest
      have hread := ih (h.step hl) hrest
      rwa [List.append_assoc, List.singleton_append] at hread

theorem wellFormed_iff {ls : List Lexeme} :
    WellFormed ls ↔ ls.foldlM expects (true, []) = some (false, []) := by
  refine ⟨fun h => h.expected [], fun h => ?_⟩
  have hstart : ReadSo (true, []) [] := fun e he => he
  exact hstart.run h

instance (ls : List Lexeme) : Decidable (WellFormed ls) := decidable_of_iff _ wellFormed_iff.symm

end SysInC.Calc
