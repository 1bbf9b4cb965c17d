/-
The buffers of the shell `low-utils/lsh.c` that the text of a stage goes through: `expand_variables`
and `apply_alias`, and the parser of `execute_command_stage`, which works in the second.

A write outside of an array is `none`, and so is the reading of a string that is not terminated in
its array. `Lsh.expand_variables` and `Lsh.apply_alias` say what text is copied; here is where.
-/
import SysInC.CInt
import SysInC.LshStage
import SysInC.TextBuffer
import SysInC.WhileLoop

set_option autoImplicit false

namespace SysInC.LshBuffers

open PartialRun TextBuffer
open Lsh (Environment MAX_LINE_LEN MAX_ARGS isspace is_blank)

abbrev NUL : Char := '\x00'

abbrev Chars (n : ℕ) := Fin n → Char

/-! ## The source -/

/-- The arrays of `expand_variables`, with what is in them before they are written. -/
structure ExpandFrame where
  stat_str : Chars 16
  var_name : Chars 64

/-- `while (q(*in) && v < limit) b[v++] = *in++;` -/
def read_word {n : ℕ} (q : Char → Bool) (limit : ℕ) :
    List Char → Chars n × ℕ → Option ((Chars n × ℕ) × List Char)
  | [], s => some (s, [])
  | c :: p, s =>
    if q c = true ∧ s.2 < limit then
      (poke s.1 s.2 c).bind fun b => read_word q limit p (b, s.2 + 1)
    else some (s, c :: p)

/-- The word, terminated, and what is behind it. -/
def take_word {n : ℕ} (q : Char → Bool) (b : Chars n) (p : List Char) :
    Option (List Char × List Char) :=
  (read_word q (n - 1) p (b, 0)).bind fun (s, rest) =>
    (poke s.1 s.2 NUL).bind fun b => (string NUL b 0).map fun word => (word, rest)

variable (env : Environment)

/-- The loop of `expand_variables`, with `out` and `o`. -/
def expand_loop {n : ℕ} (fr : ExpandFrame) : ℕ → List Char → Chars n × ℕ → Option (Chars n × ℕ)
  | 0, _, s => some s
  | k + 1, p, s =>
    if n - 1 ≤ s.2 then some s
    else match p with
    | [] => some s
    | '$' :: c :: p =>
      if c = '?' then
        (snprintf NUL fr.stat_str 16 (toString env.last_exit_status).toList).bind fun stat_str =>
          (string NUL stat_str 0).bind fun stat_str =>
            (copy_while (n - 1) stat_str s).bind (expand_loop fr k p)
      else
        (take_word (fun c => c.isAlphanum || c == '_') fr.var_name (c :: p)).bind
          fun (var_name, p) =>
            (copy_while (n - 1) ((env.getenv var_name).getD []) s).bind (expand_loop fr k p)
    | c :: p => (poke s.1 s.2 c).bind fun b => expand_loop fr k p (b, s.2 + 1)

def expand_variables {n : ℕ} (fr : ExpandFrame) (cmd : List Char) (out : Chars n) :
    Option (Chars n) :=
  (expand_loop env fr cmd.length cmd (out, 0)).bind fun s => poke s.1 s.2 NUL

def apply_alias {n : ℕ} (cmd_out : Chars n) (cmd_in : List Char) : Option (Chars n) :=
  (take_word (! isspace ·) (fun _ => NUL : Chars 64) cmd_in).bind fun (first_word, rest) =>
    match env.alias_table.lookup first_word with
    | some replacement => snprintf NUL cmd_out n (replacement ++ rest)
    | none => (strncpy NUL cmd_out cmd_in (n - 1)).bind fun b => poke b (n - 1) NUL

/-- The arrays of `execute_command_stage`; a pointer into `aliased_cmd` is an index. -/
structure StageFrame where
  expand : ExpandFrame
  expanded_cmd : Chars MAX_LINE_LEN
  aliased_cmd : Chars MAX_LINE_LEN
  args : Fin MAX_ARGS → Option ℕ

/-- The variables of the parser; `buf` is `aliased_cmd`. -/
structure Parser where
  buf : Chars MAX_LINE_LEN
  p : ℕ
  args : Fin MAX_ARGS → Option ℕ
  arg_cnt : ℕ
  infile : Option ℕ
  outfile : Option ℕ
  append_out : Bool

/-- `while (q(*p)) p++;`, which has to end in the array. -/
def scan {n : ℕ} (q : Char → Bool) (buf : Chars n) (p : ℕ) : Option ℕ :=
  let e := p + (((List.ofFn buf).drop p).takeWhile q).length
  if e < n then some e else none

/-- `if (*p && q(*p)) *p++ = '\0';` -/
def cut {n : ℕ} (q : Char → Bool) (buf : Chars n) (p : ℕ) : Option (Chars n × ℕ) :=
  (peek buf p).bind fun c =>
    if c ≠ NUL ∧ q c = true then (poke buf p NUL).map fun buf => (buf, p + 1) else some (buf, p)

/-- A name behind an operator, up to a blank or `stop`: where it starts, and what is left. -/
def read_target (stop : Char) (st : Parser) (p : ℕ) : Option (ℕ × Chars MAX_LINE_LEN × ℕ) :=
  (scan is_blank st.buf p).bind fun start =>
    (scan (fun c => c != NUL && !is_blank c && c != stop) st.buf start).bind fun e =>
      (cut (fun _ => true) st.buf e).map fun (buf, p) => (start, buf, p)

/-- `while (*p)`, which ends in the array. -/
def goes_on (st : Parser) : Bool := decide (peek st.buf st.p ≠ some NUL)

/-- A turn of the loop. -/
def parse_turn (st : Parser) : Option Parser :=
  (scan is_blank st.buf st.p).bind fun p => (peek st.buf p).bind fun c =>
    if c = NUL then some { st with p }
    else if c = '>' then
      (peek st.buf (p + 1)).bind fun d =>
        (read_target '<' st (if d = '>' then p + 2 else p + 1)).map fun (start, buf, p) =>
          { st with buf, p, outfile := some start, append_out := decide (d = '>') }
    else if c = '<' then
      (read_target '>' st (p + 1)).map fun (start, buf, p) =>
        { st with buf, p, infile := some start }
    else if st.arg_cnt < MAX_ARGS - 1 then
      (poke st.args st.arg_cnt (some p)).bind fun args =>
        (scan (fun c => c != NUL && !is_blank c && c != '>' && c != '<') st.buf p).bind fun e =>
          (cut is_blank st.buf e).map fun (buf, p) =>
            { st with buf, p, args, arg_cnt := st.arg_cnt + 1 }
    else some { st with p := p + 1 }

/-- The strings that are handed on: those of the arguments up to `NULL`, and the two files. -/
def read_run (st : Parser) : Option Lsh.Run :=
  (string none st.args 0).bind fun args =>
    (args.mapM fun arg : Option ℕ => arg.bind (string NUL st.buf)).bind fun args =>
      (st.infile.mapM (string NUL st.buf)).bind fun infile =>
        (st.outfile.mapM (string NUL st.buf)).map fun outfile =>
          ⟨args, infile, outfile.map (·, st.append_out)⟩

/-- Up to `handle_builtin` and `execvp`. Each turn of the loop goes on by a place. -/
def execute_command_stage (fr : StageFrame) (cmd_str : List Char) : Option Lsh.Run :=
  (expand_variables env fr.expand cmd_str fr.expanded_cmd).bind fun expanded_cmd =>
    (string NUL expanded_cmd 0).bind fun expanded_cmd =>
      (apply_alias env fr.aliased_cmd expanded_cmd).bind fun aliased_cmd =>
        (WhileLoop.run goes_on parse_turn MAX_LINE_LEN
          ⟨aliased_cmd, 0, fr.args, 0, none, none, false⟩).bind fun st =>
            (poke st.args st.arg_cnt none).bind fun args => read_run { st with args }

/-! ## Words -/

theorem returns_word {n : ℕ} {q : Char → Bool} {limit : ℕ} (hlimit : limit < n) (p : List Char)
    {t : List Char} (ht : t.length ≤ limit) {s : Chars n × ℕ} (h : Copied t s) :
    Returns (read_word q limit p s) True fun r =>
      Copied (t ++ (p.takeWhile q).take (limit - t.length)) r.1 ∧
        r.2 = p.drop ((p.takeWhile q).take (limit - t.length)).length := by
  induction p generalizing t s with
  | nil =>
    rw [List.takeWhile_nil, List.take_nil, List.append_nil]
    exact Returns.pure ⟨h, rfl⟩
  | cons c p ih =>
    obtain ⟨b₀, o⟩ := s
    obtain rfl : o = t.length := h.2
    rw [read_word]
    split
    · next hgoes =>
      obtain ⟨hq, hlt⟩ := hgoes
      refine ((h.poke c).congr (iff_of_true (by omega) trivial)).seq fun b hb => ?_
      have hlen : (t ++ [c]).length = t.length + 1 := by
        rw [List.length_append, List.length_singleton]
      have hrest := ih (by omega) hb
      rw [hlen] at hrest
      rw [List.takeWhile_cons_of_pos hq, show limit - t.length = limit - (t.length + 1) + 1 by omega,
        List.take_succ_cons, List.length_cons, List.drop_succ_cons, List.append_cons]
      exact hrest
    · next hstops =>
      have hnone : ((c :: p).takeWhile q).take (limit - t.length) = [] := by
        rcases Nat.lt_or_ge t.length limit with hlt | hge
        · have hq : ¬ q c = true := fun hq => hstops ⟨hq, hlt⟩
          rw [List.takeWhile_cons_of_neg hq, List.take_nil]
        · rw [Nat.sub_eq_zero_of_le hge, List.take_zero]
      rw [hnone, List.append_nil]
      exact Returns.pure ⟨h, rfl⟩

theorem zero_notMem_take {p : List Char} (h : NUL ∉ p) (m : ℕ) : NUL ∉ p.take m :=
  fun hmem => h (List.mem_of_mem_take hmem)

theorem returns_take_word {n : ℕ} (q : Char → Bool) (b : Chars (n + 1)) {p : List Char}
    (hp : NUL ∉ p) :
    Returns (take_word q b p) True fun r =>
      r.1 = (p.takeWhile q).take n ∧ r.2 = p.drop r.1.length := by
  unfold take_word
  have hword := returns_word (q := q) (t := []) (Nat.lt_succ_self n) p (Nat.zero_le n)
    (copied_nil b)
  rw [List.length_nil, Nat.sub_zero, List.nil_append] at hword
  refine hword.seq ?_
  rintro ⟨s, rest⟩ ⟨hs, hrest⟩
  have hle : ((p.takeWhile q).take n).length ≤ n := List.length_take_le n _
  refine ((hs.poke NUL).congr (iff_of_true (by omega) trivial)).seq fun b' hb' => ?_
  have hclean : NUL ∉ (p.takeWhile q).take n :=
    zero_notMem_take (fun hmem => hp ((List.takeWhile_sublist q).mem hmem)) n
  rw [hb'.1.string hclean, Option.map_some]
  exact Returns.pure ⟨rfl, hrest⟩

/-! ## Variables -/

/-- The texts that the copies take are C strings, and the status is an `int`. -/
structure Clean (env : Environment) : Prop where
  getenv : ∀ name val, env.getenv name = some val → NUL ∉ val
  alias_table : ∀ name replacement, env.alias_table.lookup name = some replacement →
    NUL ∉ replacement
  last_exit_status : CInt.IsInt env.last_exit_status

/-- An `int` is printed with a sign and ten digits at most. -/
theorem printed_status {v : ℤ} (hv : CInt.IsInt v) :
    (toString v).toList.length ≤ 11 ∧ NUL ∉ (toString v).toList := by
  have hdigits : ∀ m : ℕ, m < 10 ^ 10 → m.repr.toList.length ≤ 10 ∧ NUL ∉ m.repr.toList := by
    intro m hm
    rw [Nat.toList_repr]
    refine ⟨(Nat.length_toDigits_le_iff (by decide) (by decide)).mpr hm, fun hmem => ?_⟩
    exact absurd (Nat.isDigit_of_mem_toDigits (by decide) (by decide) hmem) (by decide)
  rw [CInt.isInt_iff] at hv
  rw [Int.toString_eq_repr, Int.repr_eq_if]
  split
  · obtain ⟨hlen, hclean⟩ := hdigits v.toNat (by omega)
    exact ⟨by omega, hclean⟩
  · obtain ⟨hlen, hclean⟩ := hdigits (-v).toNat (by omega)
    have hsign : ("-" ++ (-v).toNat.repr).toList = '-' :: (-v).toNat.repr.toList := by
      rw [String.toList_append]
      rfl
    rw [hsign, List.length_cons, List.mem_cons, not_or]
    exact ⟨by omega, by decide, hclean⟩

section Expand

variable {env} {n : ℕ} {fr : ExpandFrame}

/-- A character that no variable starts at. -/
theorem expand_loop_plain {c : Char} {p : List Char} (h : c = '$' → p = []) (k : ℕ)
    (s : Chars n × ℕ) :
    expand_loop env fr (k + 1) (c :: p) s = if n - 1 ≤ s.2 then some s else
      (poke s.1 s.2 c).bind fun b => expand_loop env fr k p (b, s.2 + 1) := by
  rw [expand_loop]
  intro d p' hc hp
  exact absurd (hp ▸ h hc) (List.cons_ne_nil d p')

theorem list_loop_plain {c : Char} {p : List Char} (h : c = '$' → p = []) (m k : ℕ)
    (t : List Char) :
    Lsh.expand_loop env m (k + 1) (c :: p) t = if m - 1 ≤ t.length then t else
      Lsh.expand_loop env m k p (t ++ [c]) := by
  rw [Lsh.expand_loop]
  intro d p' hc hp
  exact absurd (hp ▸ h hc) (List.cons_ne_nil d p')

/-- What is copied is in the array, and leaves room for the terminator. -/
def Fits (n : ℕ) (t : List Char) (s : Chars (n + 1) × ℕ) : Prop :=
  Copied t s ∧ t.length ≤ n ∧ NUL ∉ t

theorem Fits.copy_while {t : List Char} {s : Chars (n + 1) × ℕ} (h : Fits n t s) {cs : List Char}
    (hcs : NUL ∉ cs) :
    Returns (copy_while n cs s) True (Fits n ((t ++ cs).take n)) := by
  apply (h.1.copy_while (Nat.le_succ n) cs h.2.1).imp Iff.rfl
  intro s' hs'
  refine ⟨hs', List.length_take_le n _, zero_notMem_take (fun hmem => ?_) n⟩
  rcases List.mem_append.mp hmem with hmem | hmem
  · exact h.2.2 hmem
  · exact hcs hmem

/-- The loop writes what `Lsh.expand_loop` computes. -/
theorem returns_expand_loop (henv : Clean env) (k : ℕ) {p : List Char} (hp : NUL ∉ p)
    {t : List Char} {s : Chars (n + 1) × ℕ} (h : Fits n t s) :
    Returns (expand_loop env fr k p s) True (Fits n (Lsh.expand_loop env (n + 1) k p t)) := by
  induction k generalizing p t s with
  | zero => exact Returns.pure h
  | succ k ih =>
    cases p with
    | nil =>
      rw [expand_loop, Lsh.expand_loop]
      split_ifs <;> exact Returns.pure h
    | cons c p =>
      rw [List.mem_cons, not_or] at hp
      by_cases hplain : c = '$' → p = []
      · rw [expand_loop_plain hplain, list_loop_plain hplain, h.1.2, Nat.add_sub_cancel]
        split
        · exact Returns.pure h
        · next hroom =>
          have hpoke := (h.1.poke c).congr (iff_of_true (by omega) trivial)
          rw [h.1.2] at hpoke
          refine hpoke.seq fun b hb => ih hp.2 ⟨hb, ?_, ?_⟩
          · rw [List.length_append, List.length_singleton]
            omega
          · rw [List.mem_append, List.mem_singleton, not_or]
            exact ⟨h.2.2, hp.1⟩
      · rw [Classical.not_imp] at hplain
        obtain ⟨rfl, hne⟩ := hplain
        obtain ⟨c, p, rfl⟩ := List.exists_cons_of_ne_nil hne
        rw [expand_loop, Lsh.expand_loop, h.1.2, Nat.add_sub_cancel]
        split
        · exact Returns.pure h
        · dsimp only
          split
          · -- the status, which fits in its array
            obtain ⟨hlen, hclean⟩ := printed_status henv.last_exit_status
            refine (returns_snprintf fr.stat_str hclean).seq fun b hb => ?_
            rw [hb, Option.bind_some, List.take_of_length_le (by omega)]
            exact (h.copy_while hclean).seq fun s' hs' =>
              ih (fun hmem => hp.2 (List.mem_cons_of_mem c hmem)) hs'
          · refine (returns_take_word _ fr.var_name hp.2).seq ?_
            rintro ⟨name, rest⟩ ⟨hname, hrest⟩
            dsimp only at hname hrest ⊢
            rw [hrest, hname]
            have hval : NUL ∉ (env.getenv
                (((c :: p).takeWhile fun c => c.isAlphanum || c == '_').take 63)).getD [] := by
              cases hget : env.getenv _ with
              | none => exact List.not_mem_nil
              | some val => exact henv.getenv _ val hget
            exact (h.copy_while hval).seq fun s' hs' =>
              ih (fun hmem => hp.2 (List.mem_of_mem_drop hmem)) hs'

theorem returns_expand (henv : Clean env) {cmd : List Char} (hcmd : NUL ∉ cmd)
    (out : Chars (n + 1)) :
    Returns (expand_variables env fr cmd out) True fun b =>
      string NUL b 0 = some (Lsh.expand_variables env cmd (n + 1)) ∧
        NUL ∉ Lsh.expand_variables env cmd (n + 1) := by
  have hstart : Fits n [] (out, 0) := ⟨copied_nil out, Nat.zero_le n, List.not_mem_nil⟩
  unfold expand_variables
  refine (returns_expand_loop henv cmd.length hcmd hstart).seq fun s hs => ?_
  obtain ⟨hcopied, hlen, hclean⟩ := hs
  apply ((hcopied.poke NUL).congr (iff_of_true (by omega) trivial)).imp Iff.rfl
  intro b hb
  exact ⟨hb.1.string hclean, hclean⟩

end Expand

/-! ## Aliases -/

theorem returns_alias {env : Environment} (henv : Clean env) {n : ℕ} (cmd_out : Chars (n + 1))
    {cmd_in : List Char} (hin : NUL ∉ cmd_in) :
    Returns (apply_alias env cmd_out cmd_in) True fun b =>
      string NUL b 0 = some (Lsh.apply_alias env cmd_in (n + 1)) ∧
        NUL ∉ Lsh.apply_alias env cmd_in (n + 1) ∧
        (Lsh.apply_alias env cmd_in (n + 1)).length ≤ n := by
  unfold apply_alias Lsh.apply_alias
  refine (returns_take_word _ _ hin).seq ?_
  rintro ⟨word, rest⟩ ⟨hword, hrest⟩
  dsimp only at hword hrest ⊢
  rw [hrest, hword, Nat.add_sub_cancel]
  cases hfound : env.alias_table.lookup ((cmd_in.takeWhile (! isspace ·)).take 63) with
  | none =>
    apply (returns_strncpy_nul cmd_out hin).imp Iff.rfl
    intro b hb
    exact ⟨hb, zero_notMem_take hin n, List.length_take_le n _⟩
  | some replacement =>
    have hprinted : NUL ∉ replacement ++
        cmd_in.drop ((cmd_in.takeWhile (! isspace ·)).take 63).length := by
      rw [List.mem_append, not_or]
      exact ⟨henv.alias_table _ _ hfound, fun hmem => hin (List.mem_of_mem_drop hmem)⟩
    apply (returns_snprintf cmd_out hprinted).imp Iff.rfl
    intro b hb
    exact ⟨hb, zero_notMem_take hprinted n, List.length_take_le n _⟩

/-! ## The parser -/

/-- There is a terminator at `last`. -/
def EndsAt {n : ℕ} (buf : Chars n) (last : ℕ) : Prop := peek buf last = some NUL

section EndsAt

variable {n : ℕ} {buf : Chars n} {last : ℕ}

theorem EndsAt.lt (h : EndsAt buf last) : last < n := ((Returns.peek buf last).2 NUL h).1

theorem EndsAt.peek (h : EndsAt buf last) {p : ℕ} (hp : p ≤ last) :
    Returns (peek buf p) True fun c => peek buf p = some c ∧ (c ≠ NUL → p < last) := by
  have hlt := h.lt
  refine ⟨fun _ => (Returns.peek buf p).1 (by omega), fun c hc => ⟨trivial, hc, fun hne => ?_⟩⟩
  rcases Nat.lt_or_eq_of_le hp with hless | rfl
  · exact hless
  · exact absurd (Option.some.inj (hc.symm.trans h)) hne

theorem EndsAt.poke (h : EndsAt buf last) {p : ℕ} (hp : p ≤ last) :
    Returns (poke buf p NUL) True fun b => EndsAt b last := by
  have hlt := h.lt
  refine ⟨fun _ => (Returns.poke buf p NUL).1 (by omega), fun b hb => ⟨trivial, ?_⟩⟩
  change PartialRun.peek b last = some NUL
  rw [peek_eq, ofFn_poke hb, List.getElem?_set]
  split
  · rw [if_pos (by simp; omega)]
  · rw [← peek_eq, h]

theorem EndsAt.string (h : EndsAt buf last) {off : ℕ} (hoff : off ≤ last) :
    ∃ s, string NUL buf off = some s := by
  have hval := h
  rw [EndsAt, peek_of_lt h.lt] at hval
  exact string_of_le h.lt (Option.some.inj hval) hoff

/-- A scan ends at the terminator, if not before: where its condition does not hold, and behind
its start if it holds there. -/
theorem EndsAt.scan (h : EndsAt buf last) {q : Char → Bool} (hq : q NUL = false) {p : ℕ}
    (hp : p ≤ last) :
    Returns (scan q buf p) True fun e => (p ≤ e ∧ e ≤ last) ∧
      (∀ c, PartialRun.peek buf p = some c → q c = true → p < e) ∧
      ∀ c, PartialRun.peek buf e = some c → q c = false := by
  have hle : (((List.ofFn buf).drop p).takeWhile q).length ≤ last - p := by
    by_contra hlong
    have hlt := Nat.lt_of_not_le hlong
    have hnul : ((List.ofFn buf).drop p)[last - p]? = some NUL := by
      rw [List.getElem?_drop, Nat.add_sub_cancel' hp, ← peek_eq, h]
    obtain ⟨rest, hrest⟩ := List.takeWhile_prefix (p := q) (l := (List.ofFn buf).drop p)
    rw [← hrest, List.getElem?_append_left hlt] at hnul
    have hgoes := List.all_eq_true.mp List.all_takeWhile NUL (List.mem_of_getElem? hnul)
    rw [hq] at hgoes
    exact Bool.false_ne_true hgoes
  have hlt := h.lt
  unfold LshBuffers.scan
  rw [if_pos (by omega)]
  refine Returns.pure ⟨by omega, fun c hc hqc => ?_, fun c hc => ?_⟩
  · rw [peek_eq, ← Nat.add_zero p, ← List.getElem?_drop] at hc
    cases hdrop : (List.ofFn buf).drop p with
    | nil =>
      rw [hdrop] at hc
      cases hc
    | cons d rest =>
      rw [hdrop] at hc
      obtain rfl := Option.some.inj hc
      rw [List.takeWhile_cons_of_pos hqc, List.length_cons]
      omega
  · rw [peek_eq, ← List.getElem?_drop] at hc
    generalize (List.ofFn buf).drop p = l at hc
    induction l with
    | nil => cases hc
    | cons d l ih =>
      cases hqd : q d with
      | false =>
        rw [List.takeWhile_cons_of_neg (by rw [hqd]; exact Bool.false_ne_true)] at hc
        obtain rfl := Option.some.inj hc
        exact hqd
      | true =>
        rw [List.takeWhile_cons_of_pos hqd, List.length_cons, List.getElem?_cons_succ] at hc
        exact ih hc

theorem EndsAt.cut (h : EndsAt buf last) (q : Char → Bool) {p : ℕ} (hp : p ≤ last) :
    Returns (cut q buf p) True fun r => EndsAt r.1 last ∧ p ≤ r.2 ∧ r.2 ≤ last := by
  unfold LshBuffers.cut
  refine (h.peek hp).seq fun c hc => ?_
  split
  · next hcut =>
    have hless := hc.2 hcut.1
    exact (h.poke hp).map fun b hb => ⟨hb, by omega, by omega⟩
  · exact Returns.pure ⟨h, le_rfl, hp⟩

end EndsAt

/-- What the loop keeps: there is a terminator at `last`, and nothing that is read lies behind. -/
structure Inside (last : ℕ) (st : Parser) : Prop where
  buf : EndsAt st.buf last
  p_le : st.p ≤ last
  args : ∃ l, Copied l (st.args, st.arg_cnt) ∧ ∀ a ∈ l, ∃ q ≤ last, a = some q
  arg_cnt : st.arg_cnt < MAX_ARGS
  infile : ∀ q, st.infile = some q → q ≤ last
  outfile : ∀ q, st.outfile = some q → q ≤ last

theorem returns_target (stop : Char) {last : ℕ} {st : Parser} (h : EndsAt st.buf last) {p : ℕ}
    (hp : p ≤ last) :
    Returns (read_target stop st p) True fun r =>
      r.1 ≤ last ∧ EndsAt r.2.1 last ∧ p ≤ r.2.2 ∧ r.2.2 ≤ last := by
  unfold read_target
  refine (h.scan (by decide) hp).seq fun start hstart => ?_
  refine (h.scan (by simp) hstart.1.2).seq fun e he => ?_
  refine (h.cut _ he.1.2).map fun r hr => ⟨hstart.1.2, hr.1, ?_, hr.2.2⟩
  exact hstart.1.1.trans (he.1.1.trans hr.2.1)

/-- A turn of the loop goes on by a place. -/
theorem returns_turn {last : ℕ} {st : Parser} (h : Inside last st) (hgo : goes_on st = true) :
    Returns (parse_turn st) True fun st' => Inside last st' ∧ st.p < st'.p := by
  obtain ⟨hbuf, hp, hargs, hcnt, hinfile, houtfile⟩ := h
  have hne : peek st.buf st.p ≠ some NUL := of_decide_eq_true hgo
  unfold parse_turn
  refine (hbuf.scan (by decide) hp).seq fun p hscan => ?_
  obtain ⟨⟨hle, hplast⟩, -, hnot⟩ := hscan
  refine (hbuf.peek hplast).seq fun c hc => ?_
  split
  · next hnul =>
    -- only blanks were left, and one at least
    refine Returns.pure ⟨⟨hbuf, hplast, hargs, hcnt, hinfile, houtfile⟩, ?_⟩
    rcases Nat.lt_or_eq_of_le hle with hless | heq
    · exact hless
    · rw [heq, hc.1, hnul] at hne
      exact absurd rfl hne
  · next hnul =>
    have hless := hc.2 hnul
    split
    · refine (hbuf.peek hless).seq fun d hd => ?_
      have hname : p + 1 ≤ (if d = '>' then p + 2 else p + 1) ∧
          (if d = '>' then p + 2 else p + 1) ≤ last := by
        split
        · next heq => exact ⟨Nat.le_succ _, hd.2 (by rw [heq]; decide)⟩
        · exact ⟨le_rfl, hless⟩
      refine (returns_target '<' hbuf hname.2).map ?_
      rintro ⟨start, buf, p'⟩ ⟨hstart, hbuf', hmoved, hend⟩
      refine ⟨⟨hbuf', hend, hargs, hcnt, hinfile, fun q heq => Option.some.inj heq ▸ hstart⟩, ?_⟩
      exact hle.trans_lt (hname.1.trans hmoved)
    · split
      · refine (returns_target '>' hbuf hless).map ?_
        rintro ⟨start, buf, p'⟩ ⟨hstart, hbuf', hmoved, hend⟩
        refine ⟨⟨hbuf', hend, hargs, hcnt, fun q heq => Option.some.inj heq ▸ hstart, houtfile⟩, ?_⟩
        exact hle.trans_lt hmoved
      · split
        · next hroom =>
          obtain ⟨l, hl, hbefore⟩ := hargs
          have hlen : st.arg_cnt = l.length := hl.2
          refine ((hl.poke (some p)).congr (iff_of_true (by omega) trivial)).seq fun args hargs => ?_
          refine (hbuf.scan (by decide) hplast).seq fun e he => ?_
          refine (hbuf.cut is_blank he.1.2).map ?_
          rintro ⟨buf, p'⟩ ⟨hbuf', hmoved, hend⟩
          refine ⟨⟨hbuf', hend, ⟨l ++ [some p], hargs, ?_⟩, Nat.lt_pred_iff.mp hroom, hinfile,
            houtfile⟩, ?_⟩
          · intro a ha
            rcases List.mem_append.mp ha with ha | ha
            · exact hbefore a ha
            · exact ⟨p, hplast, List.mem_singleton.mp ha⟩
          · -- the character that the word starts with is none that ends it
            have hword : (c != NUL && !is_blank c && c != '>' && c != '<') = true := by
              rw [hnot c hc.1]
              simp only [Bool.and_eq_true, bne_iff_ne, Bool.not_false, and_true]
              exact ⟨⟨hnul, ‹_›⟩, ‹_›⟩
            exact (hle.trans_lt (he.2.1 c hc.1 hword)).trans_le hmoved
        · exact Returns.pure ⟨⟨hbuf, hless, hargs, hcnt, hinfile, houtfile⟩, Nat.lt_succ_of_le hle⟩

theorem returns_strings {n : ℕ} {buf : Chars n} {last : ℕ} (h : EndsAt buf last)
    {l : List (Option ℕ)} (hl : ∀ a ∈ l, ∃ q ≤ last, a = some q) :
    ∃ words, (l.mapM fun arg : Option ℕ => arg.bind (string NUL buf)) = some words := by
  induction l with
  | nil => exact ⟨[], rfl⟩
  | cons a l ih =>
    rw [List.forall_mem_cons] at hl
    obtain ⟨⟨q, hq, rfl⟩, hrest⟩ := hl
    obtain ⟨word, hword⟩ := h.string hq
    obtain ⟨words, hwords⟩ := ih hrest
    exact ⟨word :: words, by rw [List.mapM_cons, Option.bind_some, hword, hwords]; rfl⟩

theorem returns_file {n : ℕ} {buf : Chars n} {last : ℕ} (h : EndsAt buf last) {file : Option ℕ}
    (hfile : ∀ q, file = some q → q ≤ last) :
    ∃ name, file.mapM (string NUL buf) = some name := by
  cases file with
  | none => exact ⟨none, rfl⟩
  | some q =>
    obtain ⟨name, hname⟩ := h.string (hfile q rfl)
    exact ⟨some name, by rw [Option.mapM_some, hname]; rfl⟩

theorem returns_run {last : ℕ} {st : Parser} (h : Inside last st) :
    Returns ((poke st.args st.arg_cnt none).bind fun args => read_run { st with args }) True
      fun _ => True := by
  obtain ⟨l, hl, hsome⟩ := h.args
  have hlen : st.arg_cnt = l.length := hl.2
  have hroom := h.arg_cnt
  refine ((hl.poke none).congr (iff_of_true (by omega) trivial)).seq fun args hargs => ?_
  have hnone : none ∉ l := by
    intro hmem
    obtain ⟨q, -, heq⟩ := hsome none hmem
    cases heq
  obtain ⟨words, hwords⟩ := returns_strings h.buf hsome
  obtain ⟨infile, hinfile⟩ := returns_file h.buf h.infile
  obtain ⟨outfile, houtfile⟩ := returns_file h.buf h.outfile
  unfold read_run
  dsimp only
  rw [hargs.1.string hnone, Option.bind_some, hwords, Option.bind_some, hinfile, Option.bind_some,
    houtfile]
  exact Returns.pure trivial

theorem endsAt_of_string {n : ℕ} {buf : Chars n} {s : List Char} (h : string NUL buf 0 = some s) :
    ∃ last, EndsAt buf last := by
  unfold string at h
  split at h
  · next hmem =>
    obtain ⟨last, hlast⟩ := List.mem_iff_getElem?.mp hmem
    rw [List.getElem?_drop, Nat.zero_add, ← peek_eq] at hlast
    exact ⟨last, hlast⟩
  · cases h

theorem returns_parse {buf : Chars MAX_LINE_LEN} {last : ℕ} (h : EndsAt buf last)
    (args : Fin MAX_ARGS → Option ℕ) :
    Returns (WhileLoop.run goes_on parse_turn MAX_LINE_LEN ⟨buf, 0, args, 0, none, none, false⟩)
      True (Inside last) := by
  have hstart : Inside last ⟨buf, 0, args, 0, none, none, false⟩ := by
    refine ⟨h, Nat.zero_le last, ⟨[], copied_nil args, ?_⟩, Nat.succ_pos 127, ?_, ?_⟩
    · intro a ha
      cases ha
    all_goals
      intro q hq
      cases hq
  have hpos : ∀ st : Parser, Inside last st → goes_on st = true → 0 < MAX_LINE_LEN - st.p := by
    intro st hst _
    have hlt := hst.buf.lt
    have hle := hst.p_le
    omega
  refine (WhileLoop.returns_run (P := fun _ => True) (G := fun _ => True) hpos (fun _ _ => trivial)
    (fun _ _ _ _ => trivial) (fun st hst hgo => ?_) hstart (Nat.sub_le _ _)).imp Iff.rfl
      fun st hst => hst.1
  apply (returns_turn hst hgo).imp Iff.rfl
  rintro st' ⟨hinside, hmoved⟩
  have hlt := hinside.buf.lt
  have hle := hinside.p_le
  exact ⟨⟨hinside, by omega⟩, Iff.rfl⟩

section Stage

variable {env : Environment} (henv : Clean env) {cmd_str : List Char} (hcmd : NUL ∉ cmd_str)
include henv hcmd

theorem returns_expanded (fr : ExpandFrame) (out : Chars MAX_LINE_LEN) :
    Returns (expand_variables env fr cmd_str out) True fun b =>
      string NUL b 0 = some (Lsh.expand_variables env cmd_str MAX_LINE_LEN) ∧
        NUL ∉ Lsh.expand_variables env cmd_str MAX_LINE_LEN :=
  returns_expand (n := 2047) henv hcmd out

/-- The text behind both copies. -/
theorem returns_aliased (cmd_out : Chars MAX_LINE_LEN) :
    Returns (apply_alias env cmd_out (Lsh.expand_variables env cmd_str MAX_LINE_LEN)) True fun b =>
      string NUL b 0 = some (Lsh.aliased env cmd_str) ∧ NUL ∉ Lsh.aliased env cmd_str ∧
        (Lsh.aliased env cmd_str).length ≤ 2047 := by
  obtain ⟨b, hb⟩ := (returns_expanded henv hcmd ⟨fun _ => NUL, fun _ => NUL⟩ fun _ => NUL).1 trivial
  have hclean := ((returns_expanded henv hcmd _ _).2 b hb).2.2
  exact returns_alias (n := 2047) henv cmd_out hclean

/-- **A stage.** Its text goes through the arrays of `execute_command_stage` without leaving one of
them, and all that is handed on is terminated. -/
theorem returns_stage (fr : StageFrame) :
    Returns (execute_command_stage env fr cmd_str) True fun _ => True := by
  unfold execute_command_stage
  refine (returns_expanded henv hcmd fr.expand fr.expanded_cmd).seq fun expanded hexpanded => ?_
  rw [hexpanded.1, Option.bind_some]
  refine (returns_aliased henv hcmd fr.aliased_cmd).seq fun buf hbuf => ?_
  obtain ⟨last, hlast⟩ := endsAt_of_string hbuf.1
  exact (returns_parse hlast fr.args).seq fun st hst => returns_run hst

end Stage

end SysInC.LshBuffers
