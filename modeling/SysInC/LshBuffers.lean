/-
The line buffer of the shell `low-utils/lsh.c`: `process_line`, which copies a line to
`current_cmd` command by command, and the arrays of `execute_pipeline`.

No copy of `process_line` is compared with the size of `current_cmd`, so a command of a line has to
fit there with its terminator. Behind it all copies are cut to their arrays, and terminated but for
one: a text of 2047 characters fills `line_copy` up to its last place, where `strncpy` does not
write.
-/
import SysInC.LshCopies

set_option autoImplicit false

namespace SysInC.LshBuffers

open PartialRun TextBuffer Tokens
open Lsh (Environment MAX_LINE_LEN MAX_ARGS MAX_PIPES is_blank)

/-! ## The source -/

/-- The arrays of `execute_pipeline`, with what is in them before. A pointer is the string that it
points to. -/
structure PipelineFrame where
  stages : Fin MAX_PIPES → Option (List Char)
  expand : ExpandFrame
  expanded : Chars MAX_LINE_LEN
  aliased : Chars MAX_LINE_LEN
  line_copy : Chars MAX_LINE_LEN
  args : Fin MAX_ARGS → Option (List Char)

/-- What the shell runs in, `σ` being its states: the variables and what stands on the stack, and
what a builtin does, `none` where it exits, and one stage or several that are waited for, with what
`execute_pipeline` returns then. The lines that `source` runs are lines of their own. -/
structure System (σ : Type*) where
  env : σ → Environment
  clean : ∀ w, Clean (env w)
  frame : σ → PipelineFrame
  stage_frame : σ → ℕ → StageFrame
  handle_builtin : List (List Char) → σ → Option σ
  wait_one : Lsh.Run → σ → σ × ℤ
  wait_all : List Lsh.Run → σ → σ × ℤ

variable {σ : Type*} (sys : System σ)

/-- `stages[i]` -/
def stage_at (stages : Fin MAX_PIPES → Option (List Char)) (i : ℕ) : Option (List Char) :=
  (peek stages i).bind id

/-- The builtins that run in the shell, with `args`. -/
def execute_builtin (aliased : List Char) (w : σ) : Option (Option (σ × ℤ)) :=
  (copy_while (MAX_ARGS - 1) ((pieces is_blank aliased).map some) ((sys.frame w).args, 0)).bind
    fun (args, ac) => (poke args ac none).bind fun args => (string none args 0).map fun args =>
      (sys.handle_builtin (args.filterMap id) w).map fun w => (w, (sys.env w).last_exit_status)

/-- `if (stage_cnt == 1)` -/
def execute_single (stage : List Char) (w : σ) : Option (Option (σ × ℤ)) :=
  let env := sys.env w
  let fr := sys.frame w
  (expand_variables env fr.expand stage fr.expanded).bind fun expanded =>
    (string NUL expanded 0).bind fun expanded =>
      (apply_alias env fr.aliased expanded).bind fun aliased =>
        (string NUL aliased 0).bind fun aliased =>
          ((strncpy NUL fr.line_copy aliased (MAX_LINE_LEN - 1)).bind fun b =>
            string NUL b 0).bind fun line_copy =>
              let first_word := (pieces is_blank line_copy).head?
              if first_word.any Lsh.shell_names.contains = true then execute_builtin sys aliased w
              else
                let stage := if first_word = some "time".toList then
                  (Lsh.after_time stage).getD stage else stage
                (execute_command_stage env (sys.stage_frame w 0) stage).map fun run =>
                  some (sys.wait_one run w)

/-- What `execute_pipeline` leaves and returns; `some none` where the shell has exited. -/
def execute_pipeline (line : List Char) (w : σ) : Option (Option (σ × ℤ)) :=
  (copy_while MAX_PIPES ((pieces (· == '|') line).map some) ((sys.frame w).stages, 0)).bind
    fun (stages, stage_cnt) =>
      if stage_cnt = 0 then some (some (w, 0))
      else if stage_cnt = 1 then (stage_at stages 0).bind fun stage => execute_single sys stage w
      else ((List.range stage_cnt).mapM fun i => (stage_at stages i).bind fun stage =>
        execute_command_stage (sys.env w) (sys.stage_frame w i) stage).map fun runs =>
          some (sys.wait_all runs w)

/-- The variables of `process_line`. What `strtok` has written to `current_cmd` is not read. -/
structure Proc (σ : Type*) where
  current_cmd : Chars MAX_LINE_LEN
  c_idx : ℕ
  next_op : ℕ
  should_run : Bool
  world : σ

/-- What is done in front of a separator. -/
def flush (s : Proc σ) : Option (Option (Proc σ)) :=
  (poke s.current_cmd s.c_idx NUL).bind fun current_cmd =>
    if s.should_run = true ∧ 0 < s.c_idx then
      (string NUL current_cmd 0).bind fun cmd =>
        (execute_pipeline sys cmd s.world).map fun r => r.map fun (world, res) =>
          { s with
            current_cmd
            world
            should_run :=
              if s.next_op = 1 ∧ res ≠ 0 then false
              else if s.next_op = 2 ∧ res = 0 then false
              else s.should_run }
    else some (some { s with current_cmd })

/-- What follows, unless the shell has exited. -/
def following {α β : Type*} (r : Option (Option α)) (f : α → Option (Option β)) :
    Option (Option β) :=
  r.bind fun r => r.elim (some none) f

/-- Whether the command behind a separator runs; `op` is its `next_op`. -/
def runs_behind (op : ℕ) (w : σ) : Bool :=
  if op = 0 then true
  else if op = 1 then decide ((sys.env w).last_exit_status = 0)
  else decide ((sys.env w).last_exit_status ≠ 0)

/-- Behind a separator. -/
def Proc.behind (s : Proc σ) (op : ℕ) : Proc σ :=
  { s with c_idx := 0, next_op := op, should_run := runs_behind sys op s.world }

def process_loop : List Char → Proc σ → Option (Option (Proc σ))
  | ';' :: p, s => following (flush sys s) fun s => process_loop p (s.behind sys 0)
  | '&' :: '&' :: p, s => following (flush sys s) fun s => process_loop p (s.behind sys 1)
  | '|' :: '|' :: p, s => following (flush sys s) fun s => process_loop p (s.behind sys 2)
  | c :: p, s => (poke s.current_cmd s.c_idx c).bind fun current_cmd =>
    process_loop p { s with current_cmd, c_idx := s.c_idx + 1 }
  | [], s => some (some s)

/-- Behind the loop. -/
def finish (s : Proc σ) : Option (Option σ) :=
  if 0 < s.c_idx ∧ s.should_run = true then
    (poke s.current_cmd s.c_idx NUL).bind fun current_cmd =>
      (string NUL current_cmd 0).bind fun cmd =>
        (execute_pipeline sys cmd s.world).map fun r => r.map Prod.fst
  else some (some s.world)

/-- `char current_cmd[MAX_LINE_LEN] = "";`, and the line. -/
def process_line (line : { p : List Char // NUL ∉ p }) (w : σ) : Option (Option σ) :=
  following (process_loop sys line.val ⟨fun _ => NUL, 0, 0, true, w⟩) (finish sys)

/-! ## `execute_pipeline` -/

variable {sys}

/-- A single stage leaves room in `line_copy` for the terminator, or one stands there already. -/
def PipelineOk (sys : System σ) (w : σ) (line : List Char) : Prop :=
  ∀ stage, pieces (· == '|') line = [stage] →
    (Lsh.aliased (sys.env w) stage).length < 2047 ∨
      peek (sys.frame w).line_copy 2047 = some NUL

theorem returns_builtin (aliased : List Char) (w : σ) :
    Returns (execute_builtin sys aliased w) True fun _ => True := by
  unfold execute_builtin
  have hcopy := (copied_nil (sys.frame w).args).copy_while (Nat.sub_le MAX_ARGS 1)
    ((pieces is_blank aliased).map some) (Nat.zero_le _)
  rw [List.nil_append] at hcopy
  refine hcopy.seq ?_
  rintro ⟨args, ac⟩ hargs
  have hlen : (((pieces is_blank aliased).map some).take (MAX_ARGS - 1)).length < MAX_ARGS :=
    (List.length_take_le _ _).trans_lt (Nat.lt_succ_self 127)
  refine ((hargs.poke none).congr (iff_of_true hlen trivial)).seq fun args' hargs' => ?_
  have hnone : none ∉ ((pieces is_blank aliased).map some).take (MAX_ARGS - 1) := by
    intro hmem
    obtain ⟨word, -, heq⟩ := List.mem_map.mp (List.mem_of_mem_take hmem)
    cases heq
  rw [hargs'.1.string hnone, Option.map_some]
  exact Returns.pure trivial

theorem zero_notMem_after_time {stage : List Char} (h : NUL ∉ stage) :
    NUL ∉ (Lsh.after_time stage).getD stage := by
  cases hafter : Lsh.after_time stage with
  | none => exact h
  | some rest =>
    have hsuffix : rest <:+ stage := by
      clear h
      induction stage with
      | nil => cases hafter
      | cons c p ih =>
        rw [Lsh.after_time] at hafter
        split at hafter
        · exact Option.some.inj hafter ▸ List.drop_suffix 4 (c :: p)
        · exact (ih hafter).trans (List.suffix_cons c p)
    exact fun hmem => h (hsuffix.mem hmem)

theorem returns_single {stage : List Char} (hstage : NUL ∉ stage) (w : σ) :
    Returns (execute_single sys stage w)
      ((Lsh.aliased (sys.env w) stage).length < 2047 ∨
        peek (sys.frame w).line_copy 2047 = some NUL) fun _ => True := by
  have henv := sys.clean w
  unfold execute_single
  refine (returns_expanded henv hstage _ (sys.frame w).expanded).seq fun expanded hexpanded => ?_
  rw [hexpanded.1, Option.bind_some]
  refine (returns_aliased henv hstage (sys.frame w).aliased).seq fun aliased haliased => ?_
  obtain ⟨htext, hclean, hlen⟩ := haliased
  rw [htext, Option.bind_some]
  have hcopy : Returns ((strncpy NUL (sys.frame w).line_copy (Lsh.aliased (sys.env w) stage)
      (MAX_LINE_LEN - 1)).bind fun b => string NUL b 0)
      ((Lsh.aliased (sys.env w) stage).length < 2047 ∨
        peek (sys.frame w).line_copy 2047 = some NUL) fun _ => True := by
    refine (returns_strncpy (n := 2047) (sys.frame w).line_copy hclean).imp ?_ fun _ _ => trivial
    rw [peek_of_lt (show 2047 < MAX_LINE_LEN from Nat.lt_succ_self 2047), Option.some.injEq]
    exact Iff.rfl
  refine hcopy.then fun line_copy _ _ => ?_
  dsimp only
  split
  · exact returns_builtin _ w
  · refine (returns_stage henv ?_ _).map fun _ _ => trivial
    split
    · exact zero_notMem_after_time hstage
    · exact hstage

theorem mem_of_mem_pieces {q : Char → Bool} {line piece : List Char} {c : Char}
    (hpiece : piece ∈ pieces q line) (hc : c ∈ piece) : c ∈ line := by
  have hmem := List.mem_flatten.mpr ⟨piece, hpiece, hc⟩
  rw [flatten_pieces] at hmem
  exact List.mem_of_mem_filter hmem

theorem returns_mapM {α β : Type*} {f : α → Option β} {l : List α}
    (h : ∀ a ∈ l, Returns (f a) True fun _ => True) : Returns (l.mapM f) True fun _ => True := by
  induction l with
  | nil => exact Returns.pure trivial
  | cons a l ih =>
    rw [List.forall_mem_cons] at h
    rw [List.mapM_cons]
    exact h.1.seq fun b _ => (ih h.2).seq fun bs _ => Returns.pure trivial

theorem returns_pipeline {line : List Char} (hline : NUL ∉ line) (w : σ) :
    Returns (execute_pipeline sys line w) (PipelineOk sys w line) fun _ => True := by
  have hclean : ∀ stage ∈ pieces (· == '|') line, NUL ∉ stage :=
    fun stage hstage hnul => hline (mem_of_mem_pieces hstage hnul)
  unfold execute_pipeline
  have hcopy := (copied_nil (sys.frame w).stages).copy_while (le_refl MAX_PIPES)
    ((pieces (· == '|') line).map some) (Nat.zero_le _)
  rw [List.nil_append, ← List.map_take] at hcopy
  refine hcopy.seq ?_
  rintro ⟨stages, stage_cnt⟩ ⟨hstages, hcnt⟩
  dsimp only at hstages hcnt ⊢
  rw [List.length_map, List.length_take] at hcnt
  have hat : ∀ i < stage_cnt, ∃ stage ∈ pieces (· == '|') line, stage_at stages i = some stage := by
    intro i hi
    have hlt : i < ((pieces (· == '|') line).take MAX_PIPES).length := by
      rwa [List.length_take, ← hcnt]
    refine ⟨_, List.mem_of_mem_take (List.getElem_mem hlt), ?_⟩
    rw [stage_at, hstages.peek (by rwa [List.length_map]), List.getElem?_map,
      List.getElem?_eq_getElem hlt]
    rfl
  split
  · next hzero =>
    -- no stage at all
    refine (Returns.pure trivial).congr (iff_of_true trivial fun stage hone => ?_)
    rw [hone, hzero] at hcnt
    exact absurd hcnt (by rw [List.length_singleton]; decide)
  · split
    · next hone =>
      obtain ⟨stage, hmem, hstage⟩ := hat 0 (by omega)
      have hlen : (pieces (· == '|') line).length = 1 := by
        rw [hone] at hcnt
        have : MAX_PIPES = 16 := rfl
        omega
      obtain ⟨only, honly⟩ := List.length_eq_one_iff.mp hlen
      obtain rfl : stage = only := List.mem_singleton.mp (honly ▸ hmem)
      rw [hstage, Option.bind_some]
      refine (returns_single (hclean stage hmem) w).congr ⟨fun h other hother => ?_, fun h => ?_⟩
      · rw [honly] at hother
        exact (List.cons.inj hother).1 ▸ h
      · exact h stage honly
    · next hzero hone =>
      refine Returns.congr (G := True) ?_ (iff_of_true trivial fun stage honly => ?_)
      · refine (returns_mapM fun i hi => ?_).map fun _ _ => trivial
        obtain ⟨stage, hmem, hstage⟩ := hat i (List.mem_range.mp hi)
        rw [hstage, Option.bind_some]
        exact returns_stage (sys.clean w) (hclean stage hmem) _
      · rw [honly] at hcnt
        exact absurd hcnt hone

/-! ## `process_line` -/

/-- The line taken apart: each command in front of a separator, with the separator's `next_op`, and
the last command. `cmd` is what there is of the first. -/
def commands (cmd : List Char) : List Char → List (List Char × ℕ) × List Char
  | ';' :: p => ((cmd, 0) :: (commands [] p).1, (commands [] p).2)
  | '&' :: '&' :: p => ((cmd, 1) :: (commands [] p).1, (commands [] p).2)
  | '|' :: '|' :: p => ((cmd, 2) :: (commands [] p).1, (commands [] p).2)
  | c :: p => commands (cmd ++ [c]) p
  | [] => ([], cmd)

/-- The world behind a command, if it runs. -/
def run_command (sys : System σ) (should_run : Bool) (w : σ) (cmd : List Char) :
    Option (Option σ) :=
  if should_run = true ∧ cmd ≠ [] then (execute_pipeline sys cmd w).map fun r => r.map Prod.fst
  else some (some w)

/-- The condition of a line: each command that comes before a separator is shorter than
`current_cmd`, run or not, and the last one not longer, or shorter where it runs; and what runs
meets the condition of a pipeline, in the world that the commands before it have left. -/
def LineOk (sys : System σ) (last : List Char) : List (List Char × ℕ) → Bool → σ → Prop
  | [], should_run, w => last.length ≤ MAX_LINE_LEN ∧
      (should_run = true → last ≠ [] → last.length < MAX_LINE_LEN ∧ PipelineOk sys w last)
  | (cmd, op) :: rest, should_run, w => cmd.length < MAX_LINE_LEN ∧
      (should_run = true → cmd ≠ [] → PipelineOk sys w cmd) ∧
      ∀ w', run_command sys should_run w cmd = some (some w') →
        LineOk sys last rest (runs_behind sys op w') w'

theorem returns_command (sys : System σ) {cmd : List Char} (hcmd : NUL ∉ cmd) (should_run : Bool)
    (w : σ) :
    Returns (run_command sys should_run w cmd)
      (should_run = true → cmd ≠ [] → PipelineOk sys w cmd) fun _ => True := by
  unfold run_command
  split
  · next hruns =>
    rw [imp_iff_right hruns.1, imp_iff_right hruns.2]
    exact (returns_pipeline hcmd w).map fun _ _ => trivial
  · next hskipped =>
    exact (Returns.pure trivial).congr (iff_of_true trivial fun hrun hne => absurd ⟨hrun, hne⟩ hskipped)

/-- What `process_line` has copied of a command. -/
def Holding (cmd : List Char) (s : Proc σ) : Prop :=
  Copied cmd (s.current_cmd, s.c_idx) ∧ NUL ∉ cmd

theorem Holding.pos_iff {cmd : List Char} {s : Proc σ} (h : Holding cmd s) :
    0 < s.c_idx ↔ cmd ≠ [] := by
  have hlen : s.c_idx = cmd.length := h.1.2
  rw [hlen, List.length_pos_iff]

/-- The terminator, which has to be in the array, makes a string of the command. -/
theorem Holding.terminate {cmd : List Char} {s : Proc σ} (h : Holding cmd s) :
    Returns (poke s.current_cmd s.c_idx NUL) (cmd.length < MAX_LINE_LEN)
      fun b => string NUL b 0 = some cmd :=
  (h.1.poke NUL).imp Iff.rfl fun _ hb => hb.1.string h.2

/-- In front of a separator a command that fits in the array is run. -/
theorem flush_cases (sys : System σ) {cmd : List Char} {s : Proc σ} (h : Holding cmd s)
    (hlen : cmd.length < MAX_LINE_LEN) :
    (run_command sys s.should_run s.world cmd = none ∧ flush sys s = none) ∨
      (run_command sys s.should_run s.world cmd = some none ∧ flush sys s = some none) ∨
      ∃ s', run_command sys s.should_run s.world cmd = some (some s'.world) ∧
        flush sys s = some (some s') := by
  obtain ⟨b, hb⟩ := h.terminate.1 hlen
  have hstring := (h.terminate.2 b hb).2
  have hpos := h.pos_iff
  unfold flush run_command
  rw [hb, Option.bind_some]
  by_cases hrun : s.should_run = true ∧ cmd ≠ []
  · rw [if_pos hrun, if_pos ⟨hrun.1, hpos.mpr hrun.2⟩, hstring, Option.bind_some]
    cases execute_pipeline sys cmd s.world with
    | none => exact Or.inl ⟨rfl, rfl⟩
    | some r =>
      cases r with
      | none => exact Or.inr (Or.inl ⟨rfl, rfl⟩)
      | some r => exact Or.inr (Or.inr ⟨_, rfl, rfl⟩)
  · rw [if_neg hrun, if_neg fun h => hrun ⟨h.1, hpos.mp h.2⟩]
    exact Or.inr (Or.inr ⟨{ s with current_cmd := b }, rfl, rfl⟩)

/-- The rest of a line from a state on. -/
def rest_of_line (sys : System σ) (p : List Char) (s : Proc σ) : Option (Option σ) :=
  following (process_loop sys p s) (finish sys)

theorem following_assoc {α β γ : Type*} (r : Option (Option α)) (f : α → Option (Option β))
    (g : β → Option (Option γ)) :
    following (following r f) g = following r fun a => following (f a) g := by
  cases r with
  | none => rfl
  | some r => cases r <;> rfl

theorem following_bind {α β γ : Type*} (x : Option α) (f : α → Option (Option β))
    (g : β → Option (Option γ)) :
    following (x.bind f) g = x.bind fun a => following (f a) g := by
  cases x <;> rfl

/-- A separator, where what is behind it is known to meet its condition. -/
theorem returns_separator {cmd : List Char} {s : Proc σ} (h : Holding cmd s) (op : ℕ)
    {p : List Char} (hrest : ∀ s' : Proc σ, Holding [] s' →
      Returns (rest_of_line sys p s')
        (LineOk sys (commands [] p).2 (commands [] p).1 s'.should_run s'.world) fun _ => True) :
    Returns (following (following (flush sys s) fun s => process_loop sys p (s.behind sys op))
        (finish sys))
      (LineOk sys (commands [] p).2 ((cmd, op) :: (commands [] p).1) s.should_run s.world)
      fun _ => True := by
  rw [following_assoc, LineOk]
  have hruns := returns_command sys h.2 s.should_run s.world
  by_cases hlen : cmd.length < MAX_LINE_LEN
  swap
  · have hnone : flush sys s = none := by
      cases hb : poke s.current_cmd s.c_idx NUL with
      | none => rw [flush, hb, Option.bind_none]
      | some b => exact absurd (h.terminate.2 b hb).1 hlen
    rw [hnone]
    refine ⟨fun hok => absurd hok.1 hlen, fun r hr => ?_⟩
    cases hr
  rw [and_iff_right hlen]
  rcases flush_cases sys h hlen with ⟨hrun, hflush⟩ | ⟨hrun, hflush⟩ | ⟨s', hrun, hflush⟩
  · rw [hflush]
    rw [hrun] at hruns
    refine ⟨fun hok => ?_, fun r hr => ?_⟩
    · obtain ⟨r, hr⟩ := hruns.1 hok.1
      cases hr
    · cases hr
  · rw [hflush]
    rw [hrun] at hruns
    refine (Returns.pure trivial).congr (iff_of_true trivial ⟨(hruns.2 _ rfl).1, fun w' hw' => ?_⟩)
    rw [hrun] at hw'
    cases hw'
  · rw [hflush]
    rw [hrun] at hruns
    refine (hrest (s'.behind sys op) ⟨copied_nil _, List.not_mem_nil⟩).congr ?_
    constructor
    · intro hok
      refine ⟨(hruns.2 _ rfl).1, fun w' hw' => ?_⟩
      rw [hrun] at hw'
      obtain rfl := Option.some.inj (Option.some.inj hw')
      exact hok
    · rintro ⟨-, hok⟩
      exact hok s'.world hrun

theorem returns_finish {cmd : List Char} {s : Proc σ} (h : Holding cmd s) :
    Returns (finish sys s) (LineOk sys cmd [] s.should_run s.world) fun _ => True := by
  have hle : cmd.length ≤ MAX_LINE_LEN := h.1.1.length_le
  unfold finish LineOk
  rw [and_iff_right hle]
  split
  · next hrun =>
    have hne := h.pos_iff.mp hrun.1
    rw [imp_iff_right hrun.2, imp_iff_right hne]
    refine h.terminate.bind fun b hb => ?_
    rw [hb, Option.bind_some]
    exact (returns_pipeline h.2 s.world).map fun _ _ => trivial
  · next hskipped =>
    refine (Returns.pure trivial).congr (iff_of_true trivial fun hrun hne => ?_)
    exact absurd ⟨h.pos_iff.mpr hne, hrun⟩ hskipped

section Cons

variable {c : Char} {p : List Char} (hsemi : c = ';' → False)
  (hand : ∀ p', c = '&' → p = '&' :: p' → False) (hor : ∀ p', c = '|' → p = '|' :: p' → False)
include hsemi hand hor

theorem commands_cons (cmd : List Char) : commands cmd (c :: p) = commands (cmd ++ [c]) p := by
  rw [commands]
  all_goals assumption

theorem process_loop_cons (s : Proc σ) :
    process_loop sys (c :: p) s = (poke s.current_cmd s.c_idx c).bind fun current_cmd =>
      process_loop sys p { s with current_cmd, c_idx := s.c_idx + 1 } := by
  rw [process_loop]
  all_goals assumption

end Cons

/-- A command grows to what `commands` finds of it. -/
theorem LineOk.length_le {p cmd : List Char} {should_run : Bool} {w : σ}
    (h : LineOk sys (commands cmd p).2 (commands cmd p).1 should_run w) :
    cmd.length ≤ MAX_LINE_LEN := by
  induction cmd, p using commands.induct with
  | case1 cmd p _ | case2 cmd p _ | case3 cmd p _ =>
    rw [commands] at h
    exact h.1.le
  | case4 cmd c p hsemi hand hor ih =>
    rw [commands_cons hsemi hand hor] at h
    have hlen := ih h
    rw [List.length_append] at hlen
    exact (Nat.le_add_right _ _).trans hlen
  | case5 cmd => exact h.1

/-- The loop from any place in a line on, by the commands that are left. -/
theorem returns_rest (sys : System σ) {p cmd : List Char} (hp : NUL ∉ p) {s : Proc σ} (h : Holding cmd s) :
    Returns (rest_of_line sys p s)
      (LineOk sys (commands cmd p).2 (commands cmd p).1 s.should_run s.world) fun _ => True := by
  unfold rest_of_line
  induction cmd, p using commands.induct generalizing s with
  | case1 cmd p ih =>
    rw [process_loop, commands]
    exact returns_separator h 0 fun s' hs' => ih (fun hmem => hp (List.mem_cons_of_mem _ hmem)) hs'
  | case2 cmd p ih =>
    rw [process_loop, commands]
    exact returns_separator h 1 fun s' hs' => ih (fun hmem => hp
      (List.mem_cons_of_mem _ (List.mem_cons_of_mem _ hmem))) hs'
  | case3 cmd p ih =>
    rw [process_loop, commands]
    exact returns_separator h 2 fun s' hs' => ih (fun hmem => hp
      (List.mem_cons_of_mem _ (List.mem_cons_of_mem _ hmem))) hs'
  | case4 cmd c p hsemi hand hor ih =>
    rw [List.mem_cons, not_or] at hp
    rw [process_loop_cons hsemi hand hor, commands_cons hsemi hand hor, following_bind]
    refine ((h.1.poke c).bind fun b hb => ?_).congr (H := LineOk sys _ _ s.should_run s.world)
      ⟨And.right, fun hok => ⟨?_, hok⟩⟩
    · refine ih hp.2 ⟨hb, ?_⟩
      rw [List.mem_append, List.mem_singleton, not_or]
      exact ⟨h.2, hp.1⟩
    · have hlen := hok.length_le
      rw [List.length_append] at hlen
      exact hlen
  | case5 cmd =>
    rw [process_loop, commands]
    exact returns_finish h

theorem returns_line (sys : System σ) (line : { p : List Char // NUL ∉ p }) (w : σ) :
    Returns (process_line sys line w)
      (LineOk sys (commands [] line.val).2 (commands [] line.val).1 true w) fun _ => True :=
  returns_rest sys line.property (s := ⟨fun _ => NUL, 0, 0, true, w⟩)
    ⟨copied_nil _, List.not_mem_nil⟩

/-- **Line buffers.** A line is run within `current_cmd` and within the arrays that its commands go
through, each copy terminated where it is read, exactly when its commands meet the condition. -/
theorem process_line_iff (sys : System σ) (line : { p : List Char // NUL ∉ p }) (w : σ) :
    (∃ r, process_line sys line w = some r) ↔
      LineOk sys (commands [] line.val).2 (commands [] line.val).1 true w := by
  rw [← (returns_line sys line w).iff]
  apply exists_congr
  intro r
  exact (and_iff_left trivial).symm

/-- A line without connectives is one command. -/
theorem commands_plain {p : List Char} (h : ∀ c ∈ p, c ≠ ';' ∧ c ≠ '&' ∧ c ≠ '|')
    (cmd : List Char) : commands cmd p = ([], cmd ++ p) := by
  induction p generalizing cmd with
  | nil => rw [commands, List.append_nil]
  | cons c p ih =>
    rw [List.forall_mem_cons] at h
    obtain ⟨⟨hsemi, hand, hor⟩, hrest⟩ := h
    rw [commands_cons hsemi (fun _ heq => absurd heq hand) (fun _ heq => absurd heq hor), ih hrest,
      List.append_assoc, List.singleton_append]

/-- A shell in which nothing happens. -/
def idle : System Unit where
  env := fun _ => ⟨fun _ => none, 0, []⟩
  clean := fun _ => by
    refine ⟨fun name val h => ?_, fun name replacement h => ?_, by decide⟩
    all_goals cases h
  frame := fun _ => ⟨fun _ => none, ⟨fun _ => NUL, fun _ => NUL⟩, fun _ => NUL, fun _ => NUL,
    fun _ => NUL, fun _ => none⟩
  stage_frame := fun _ _ => ⟨⟨fun _ => NUL, fun _ => NUL⟩, fun _ => NUL, fun _ => NUL, fun _ => none⟩
  handle_builtin := fun _ w => some w
  wait_one := fun _ w => (w, 0)
  wait_all := fun _ w => (w, 0)

/-- `lsh -c` with one word. -/
def long_line : { p : List Char // NUL ∉ p } :=
  ⟨List.replicate 2048 'a', fun h => absurd (List.eq_of_mem_replicate h) (by decide)⟩

/-- The word fills `current_cmd`, and its terminator is written behind the last place. -/
theorem process_line_long : ¬ ∃ r, process_line idle long_line () = some r := by
  have hplain : commands [] long_line.val = ([], long_line.val) := by
    rw [commands_plain, List.nil_append]
    intro c hc
    obtain rfl := List.eq_of_mem_replicate hc
    decide
  rintro ⟨r, hr⟩
  have hreturns := returns_line idle long_line ()
  rw [hplain, LineOk] at hreturns
  obtain ⟨-, hlast⟩ := hreturns.iff.mp ⟨r, hr, trivial⟩
  have hlen : long_line.val.length = 2048 := List.length_replicate
  have hne : long_line.val ≠ [] :=
    List.ne_nil_of_length_pos (by rw [hlen]; exact Nat.succ_pos 2047)
  have hlt := (hlast rfl hne).1
  rw [hlen] at hlt
  exact Nat.lt_irrefl 2048 hlt

end SysInC.LshBuffers
