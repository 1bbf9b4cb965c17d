/-
And-or lists in `low-utils/lsh.c`: what `process_line` executes of a line, against the rules of a
shell.

A list is a line of and-or lists with `;` between them, and an and-or list associates to the left. A
place where no command stands executes nothing and has no status of its own.
-/
import SysInC.Lsh

set_option autoImplicit false

namespace SysInC.Lsh

/-! ## And-or lists -/

inductive AndOr where
  | command (cmd : List Char)
  | and_then (front : AndOr) (cmd : List Char)
  | or_else (front : AndOr) (cmd : List Char)

def AndOr.print : AndOr → List Char
  | command cmd => cmd
  | and_then front cmd => front.print ++ '&' :: '&' :: cmd
  | or_else front cmd => front.print ++ '|' :: '|' :: cmd

def print_lists : List AndOr → List Char
  | [] => []
  | [a] => a.print
  | a :: b :: lists => a.print ++ ';' :: print_lists (b :: lists)

/-- A command as it can stand in a line: no separator is in it, and none begins at its end. -/
structure Plain (cmd : List Char) : Prop where
  semicolon : ';' ∉ cmd
  and_and : ¬ ['&', '&'] <:+: cmd
  or_or : ¬ ['|', '|'] <:+: cmd
  getLast : ∀ c ∈ cmd.getLast?, c ≠ '&' ∧ c ≠ '|'

def AndOr.Plain : AndOr → Prop
  | command cmd => Lsh.Plain cmd
  | and_then front cmd => front.Plain ∧ Lsh.Plain cmd
  | or_else front cmd => front.Plain ∧ Lsh.Plain cmd

section

variable {σ : Type*} (exec : Executor σ)

def run_command (cmd : List Char) (s : Shell σ) : Shell σ :=
  if cmd = [] then s else (execute exec cmd s).1

/-- The rules: a command behind `&&` is executed where the list in front of it has succeeded, one
behind `||` where it has failed. -/
def AndOr.run : AndOr → Shell σ → Shell σ
  | command cmd, s => run_command exec cmd s
  | and_then front cmd, s =>
    let s := front.run s
    if s.last_exit_status = 0 then run_command exec cmd s else s
  | or_else front cmd, s =>
    let s := front.run s
    if s.last_exit_status = 0 then s else run_command exec cmd s

def run_lists (lists : List AndOr) (s : Shell σ) : Shell σ :=
  lists.foldl (fun s a => a.run exec s) s

end

/-! ## Commands -/

theorem plain_of_forall {cmd : List Char} (h : ∀ c ∈ cmd, c ≠ ';' ∧ c ≠ '&' ∧ c ≠ '|') :
    Plain cmd := by
  refine ⟨fun hmem => (h _ hmem).1 rfl, fun hin => ?_, fun hin => ?_, fun c hc =>
    (h c (List.mem_of_getLast? hc)).2⟩
  · exact (h _ (hin.subset List.mem_cons_self)).2.1 rfl
  · exact (h _ (hin.subset List.mem_cons_self)).2.2 rfl

theorem Plain.tail {c : Char} {cmd : List Char} (h : Plain (c :: cmd)) : Plain cmd := by
  refine ⟨fun hmem => h.semicolon (List.mem_cons_of_mem _ hmem),
    fun hin => h.and_and (List.infix_cons hin), fun hin => h.or_or (List.infix_cons hin),
    fun x hx => h.getLast x ?_⟩
  cases cmd with
  | nil => cases hx
  | cons d cmd => rwa [List.getLast?_cons_cons]

/-- No separator begins inside of a command. -/
theorem Plain.head_pair {c : Char} (hc : c = '&' ∨ c = '|') {cmd : List Char}
    (h : Plain (c :: cmd)) (rest p : List Char) : cmd ++ rest ≠ c :: p := by
  intro heq
  cases cmd with
  | nil =>
    have hlast := h.getLast c rfl
    obtain rfl | rfl := hc
    · exact hlast.1 rfl
    · exact hlast.2 rfl
  | cons d cmd =>
    obtain rfl := (List.cons.inj heq).1
    obtain rfl | rfl := hc
    · exact h.and_and ⟨[], cmd, rfl⟩
    · exact h.or_or ⟨[], cmd, rfl⟩

section

variable {σ : Type*} {exec : Executor σ}

theorem process_loop_cons {c : Char} {p : List Char} {s : Line σ} (hsemi : c ≠ ';')
    (hpair : c = '&' ∨ c = '|' → ∀ q, p ≠ c :: q)
    (hlen : s.current_cmd.length < MAX_LINE_LEN) :
    process_loop exec (c :: p) s =
      process_loop exec p { s with current_cmd := s.current_cmd ++ [c] } := by
  rw [process_loop, if_pos hlen]
  · exact hsemi
  · rintro q rfl hp
    exact hpair (Or.inl rfl) q hp
  · rintro q rfl hp
    exact hpair (Or.inr rfl) q hp

/-- A command is copied. -/
theorem process_loop_command {cmd : List Char} (h : Plain cmd) (rest : List Char)
    {s : Line σ} (hlen : s.current_cmd.length + cmd.length < MAX_LINE_LEN) :
    process_loop exec (cmd ++ rest) s =
      process_loop exec rest { s with current_cmd := s.current_cmd ++ cmd } := by
  induction cmd generalizing s with
  | nil => rw [List.nil_append, List.append_nil]
  | cons c cmd ih =>
    have hsemi : c ≠ ';' := fun hc => h.semicolon (hc ▸ List.mem_cons_self)
    rw [List.length_cons] at hlen
    have hnext := ih (s := { s with current_cmd := s.current_cmd ++ [c] }) h.tail (by
      rw [List.length_append, List.length_singleton]
      omega)
    rw [List.cons_append, process_loop_cons hsemi (fun hc => h.head_pair hc rest) (by omega),
      hnext, List.append_assoc, List.singleton_append]

/-! ## Lists -/

/-- What is behind the command that was copied last. -/
def settle (exec : Executor σ) (s : Line σ) : Shell σ :=
  if s.should_run = true then run_command exec s.current_cmd s.shell else s.shell

theorem settle_of_not {s : Line σ} (h : ¬(s.should_run = true ∧ 0 < s.current_cmd.length)) :
    settle exec s = s.shell := by
  unfold settle run_command
  split
  · rename_i hrun
    have hnil : s.current_cmd = [] := by
      by_contra hne
      exact h ⟨hrun, List.length_pos_of_ne_nil hne⟩
    rw [if_pos hnil]
  · rfl

theorem flush_eq (exec : Executor σ) {s : Line σ} (hlen : s.current_cmd.length < MAX_LINE_LEN) :
    ∃ b, flush exec s = some { s with should_run := b, shell := settle exec s } := by
  unfold flush
  rw [if_pos hlen]
  by_cases hrun : s.should_run = true ∧ 0 < s.current_cmd.length
  · have hsettle : settle exec s = (execute exec s.current_cmd s.shell).1 := by
      rw [settle, if_pos hrun.1, run_command, if_neg (List.ne_nil_of_length_pos hrun.2)]
    rw [if_pos hrun, hsettle]
    exact ⟨_, rfl⟩
  · rw [if_neg hrun, settle_of_not hrun]
    exact ⟨s.should_run, rfl⟩

/-- Behind an and-or list the command that was copied last is all that is left of it. -/
theorem process_loop_print (exec : Executor σ) {a : AndOr} (h : a.Plain) (rest : List Char)
    (op : ℕ) (s : Shell σ) (hlen : a.print.length < MAX_LINE_LEN) :
    ∃ t : Line σ, process_loop exec (a.print ++ rest) ⟨[], op, true, s⟩ = process_loop exec rest t ∧
      settle exec t = a.run exec s ∧ t.current_cmd.length < MAX_LINE_LEN := by
  induction a generalizing rest with
  | command cmd =>
    refine ⟨⟨cmd, op, true, s⟩, ?_, if_pos rfl, hlen⟩
    exact process_loop_command h rest (by rwa [List.length_nil, Nat.zero_add])
  | and_then front cmd ih =>
    rw [AndOr.print, List.length_append, List.length_cons, List.length_cons] at hlen
    obtain ⟨t, hloop, hsettle, ht⟩ := ih h.1 ('&' :: '&' :: (cmd ++ rest)) (by omega)
    obtain ⟨b, hflush⟩ := flush_eq exec ht
    refine ⟨⟨cmd, 1, decide ((front.run exec s).last_exit_status = 0), front.run exec s⟩, ?_, ?_,
      show cmd.length < _ by omega⟩
    · rw [AndOr.print, List.append_assoc, List.cons_append, List.cons_append, hloop, process_loop,
        hflush, Option.bind_some, hsettle]
      exact process_loop_command h.2 rest (by rw [List.length_nil]; omega)
    · rw [settle, AndOr.run]
      exact if_congr decide_eq_true_iff rfl rfl
  | or_else front cmd ih =>
    rw [AndOr.print, List.length_append, List.length_cons, List.length_cons] at hlen
    obtain ⟨t, hloop, hsettle, ht⟩ := ih h.1 ('|' :: '|' :: (cmd ++ rest)) (by omega)
    obtain ⟨b, hflush⟩ := flush_eq exec ht
    refine ⟨⟨cmd, 2, decide ((front.run exec s).last_exit_status ≠ 0), front.run exec s⟩, ?_, ?_,
      show cmd.length < _ by omega⟩
    · rw [AndOr.print, List.append_assoc, List.cons_append, List.cons_append, hloop, process_loop,
        hflush, Option.bind_some, hsettle]
      exact process_loop_command h.2 rest (by rw [List.length_nil]; omega)
    · rw [settle, AndOr.run]
      exact (if_congr decide_eq_true_iff rfl rfl).trans (ite_not _ _ _)

theorem process_loop_lists (exec : Executor σ) {lists : List AndOr} (h : ∀ a ∈ lists, a.Plain)
    (op : ℕ) (s : Shell σ) (hlen : (print_lists lists).length < MAX_LINE_LEN) :
    ∃ t : Line σ, process_loop exec (print_lists lists) ⟨[], op, true, s⟩ = some t ∧
      settle exec t = run_lists exec lists s ∧ t.current_cmd.length < MAX_LINE_LEN := by
  induction lists generalizing op s with
  | nil => exact ⟨⟨[], op, true, s⟩, rfl, rfl, hlen⟩
  | cons a lists ih =>
    rw [List.forall_mem_cons] at h
    cases lists with
    | nil =>
      obtain ⟨t, hloop, hsettle, ht⟩ := process_loop_print exec h.1 [] op s hlen
      rw [List.append_nil] at hloop
      exact ⟨t, by rw [print_lists, hloop, process_loop], hsettle, ht⟩
    | cons b lists =>
      rw [print_lists, List.length_append, List.length_cons] at hlen
      obtain ⟨t, hloop, hsettle, ht⟩ := process_loop_print exec h.1
        (';' :: print_lists (b :: lists)) op s (by omega)
      obtain ⟨c, hflush⟩ := flush_eq exec ht
      obtain ⟨u, hrest, hu⟩ := ih h.2 0 (a.run exec s) (by omega)
      refine ⟨u, ?_, hu⟩
      rw [print_lists, hloop, process_loop, hflush, Option.bind_some, hsettle, hrest]

theorem process_line_eq {lists : List AndOr} (h : ∀ a ∈ lists, a.Plain) (s : Shell σ)
    (hlen : (print_lists lists).length < MAX_LINE_LEN) :
    process_line exec (print_lists lists) s = some (run_lists exec lists s) := by
  obtain ⟨t, hloop, hsettle, ht⟩ := process_loop_lists exec h 0 s hlen
  rw [process_line, hloop, Option.bind_some, if_pos ht, ← hsettle]
  split
  · rename_i hrun
    rw [settle, if_pos hrun.2, run_command, if_neg (List.ne_nil_of_length_pos hrun.1)]
  · rename_i hnot
    rw [settle_of_not fun hrun => hnot hrun.symm]

/-- The status is that of the command executed last. -/
def Noted (status : ℤ) (s : Shell σ) : Prop :=
  s.last_exit_status = (s.executed.getLast?.map Prod.snd).getD status

theorem noted_run_command {status : ℤ} {s : Shell σ} (h : Noted status s) (cmd : List Char) :
    Noted status (run_command exec cmd s) := by
  unfold run_command
  split
  · exact h
  · unfold Noted execute
    dsimp only
    rw [List.getLast?_concat]
    rfl

theorem noted_run {status : ℤ} (a : AndOr) {s : Shell σ} (h : Noted status s) :
    Noted status (a.run exec s) := by
  induction a with
  | command cmd => exact noted_run_command h cmd
  | and_then front cmd ih =>
    rw [AndOr.run]
    split
    · exact noted_run_command ih cmd
    · exact ih
  | or_else front cmd ih =>
    rw [AndOr.run]
    split
    · exact ih
    · exact noted_run_command ih cmd

theorem noted_run_lists {status : ℤ} (lists : List AndOr) {s : Shell σ} (h : Noted status s) :
    Noted status (run_lists exec lists s) := by
  induction lists generalizing s with
  | nil => exact h
  | cons a lists ih => exact ih (noted_run a h)

/-- **And-or lists.** Whatever the commands do, those are executed that the rules ask for, and the
status is that of the last one. -/
theorem process_line_lists (exec : Executor σ) {lists : List AndOr} (h : ∀ a ∈ lists, a.Plain)
    (hlen : (print_lists lists).length ≤ MAX_LINE_LEN - 1) (world : σ) (status : ℤ) :
    ∃ s, process_line exec (print_lists lists) ⟨world, status, []⟩ = some s ∧
      s = run_lists exec lists ⟨world, status, []⟩ ∧
      s.last_exit_status = (s.executed.getLast?.map Prod.snd).getD status := by
  have hlt : (print_lists lists).length < MAX_LINE_LEN := Nat.lt_of_le_pred (by decide) hlen
  exact ⟨_, process_line_eq h _ hlt, rfl, noted_run_lists lists rfl⟩

/-- `a&&b||c;d`, where `a` fails. -/
theorem process_line_lists_skipped :
    ∃ s, process_line (fun cmd (n : ℕ) => (n + 1, if cmd = ['a'] then 1 else 0))
        "a&&b||c;d".toList ⟨0, 0, []⟩ = some s ∧
      s = run_lists (fun cmd (n : ℕ) => (n + 1, if cmd = ['a'] then 1 else 0))
        [.or_else (.and_then (.command ['a']) ['b']) ['c'], .command ['d']] ⟨0, 0, []⟩ ∧
      s.last_exit_status = (s.executed.getLast?.map Prod.snd).getD 0 := by
  have hplain : ∀ a ∈ [AndOr.or_else (.and_then (.command ['a']) ['b']) ['c'], .command ['d']],
      a.Plain := by
    rw [List.forall_mem_cons, List.forall_mem_singleton]
    have hletter : ∀ c : Char, c ≠ ';' ∧ c ≠ '&' ∧ c ≠ '|' → Plain [c] :=
      fun c hc => plain_of_forall (List.forall_mem_singleton.mpr hc)
    exact ⟨⟨⟨hletter 'a' (by decide), hletter 'b' (by decide)⟩, hletter 'c' (by decide)⟩,
      hletter 'd' (by decide)⟩
  exact process_line_lists _ hplain (by decide) 0 0

end

end SysInC.Lsh
