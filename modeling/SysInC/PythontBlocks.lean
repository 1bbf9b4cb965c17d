/-
The braces of the text that the line translator generates.

`Flow` is what is left of a translator's state when of each buffer only its open blocks are kept,
each by the indentation of the line that opened it. The statements and headers are read off their
formats here, once and for all; the texts that are printed for a `%s` are not looked at.
-/
import SysInC.PythontLegacy

set_option autoImplicit false

namespace SysInC.PythontLegacy

/-! ## Braces -/

/-- The open blocks behind one more character. -/
def brace (indent : ℕ) (open_ : List ℕ) (c : Char) : Option (List ℕ) :=
  if c = '\x7b' then some (indent :: open_)
  else if c = '\x7d' then open_.tail?
  else some open_

def format_chars : Piece → List Char
  | .lit text => text.toList
  | .arg _ => []

def scan_fragment (open_ : List ℕ) (f : ℕ × Fragment) : Option (List ℕ) :=
  (f.2.flatMap format_chars).foldlM (brace f.1) open_

/-- The blocks that a text leaves open, the innermost first; `none` if it closes one that is not
open. -/
def open_blocks (buffer : Buffer) : Option (List ℕ) := buffer.foldlM scan_fragment []

/-- The same for the fragments of one line, on top of what is open. -/
def scan (indent : ℕ) (fragments : List Fragment) (open_ : List ℕ) : Option (List ℕ) :=
  fragments.foldlM (fun open_ f => scan_fragment open_ (indent, f)) open_

theorem scan_cons (indent : ℕ) (f : Fragment) (fragments : List Fragment) (open_ : List ℕ) :
    scan indent (f :: fragments) open_ =
      (scan_fragment open_ (indent, f)).bind (scan indent fragments) :=
  List.foldlM_cons

theorem scan_append (indent : ℕ) (fragments fragments' : List Fragment) (open_ : List ℕ) :
    scan indent (fragments ++ fragments') open_ =
      (scan indent fragments open_).bind (scan indent fragments') :=
  List.foldlM_append

/-! ## What the formats do -/

/-- No format of the fragments is in sight of a brace. -/
def Plain (fragments : List Fragment) : Prop :=
  ∀ (indent : ℕ) (open_ : List ℕ), scan indent fragments open_ = some open_

def Opens (fragments : List Fragment) : Prop :=
  ∀ (indent : ℕ) (open_ : List ℕ), scan indent fragments open_ = some (indent :: open_)

def Closes (fragments : List Fragment) : Prop :=
  ∀ (indent : ℕ) (open_ : List ℕ), scan indent fragments open_ = open_.tail?

/-- The block on top is closed and another one opened. -/
def Turns (fragments : List Fragment) : Prop :=
  ∀ (indent : ℕ) (open_ : List ℕ),
    scan indent fragments open_ = open_.tail?.map (indent :: ·)

theorem Plain.append {fragments fragments' : List Fragment} (h : Plain fragments)
    (h' : Plain fragments') : Plain (fragments ++ fragments') := by
  intro indent open_
  rw [scan_append, h, Option.bind_some, h']

theorem Plain.flatMap {α : Type} (l : List α) {f : α → List Fragment} (h : ∀ a, Plain (f a)) :
    Plain (l.flatMap f) := by
  induction l with
  | nil => exact fun _ _ => rfl
  | cons a l ih => exact (h a).append ih

theorem Plain.then_opens {fragments fragments' : List Fragment} (h : Plain fragments)
    (h' : Opens fragments') : Opens (fragments ++ fragments') := by
  intro indent open_
  rw [scan_append, h, Option.bind_some, h']

theorem for_header_opens (declare var : String) (hdeclare : declare = "" ∨ declare = "int64_t ")
    (args : RangeArgs) : Opens [for_header declare var args] := by
  intro indent open_
  obtain rfl | rfl := hdeclare
  · match args with
    | .one _ => rfl
    | .two _ _ => rfl
    | .three _ _ _ true => rfl
    | .three _ _ _ false => rfl
  · match args with
    | .one _ => rfl
    | .two _ _ => rfl
    | .three _ _ _ true => rfl
    | .three _ _ _ false => rfl

theorem dict_set_plain (kind : DictValue) (name key value : String) :
    Plain [dict_set kind name key value] := by
  intro indent open_
  cases kind with
  | str => rfl
  | float => rfl
  | int => rfl

theorem comprehension_loop_opens (var_item : String) (iter : Iterated) :
    Opens (comprehension_loop var_item iter) := by
  cases iter with
  | range args => exact for_header_opens _ _ (Or.inr rfl) _
  | list name => exact fun _ _ => rfl

theorem comprehension_body_plain (vstart item_expr : String) (cond : Option String) :
    Plain (comprehension_body vstart item_expr cond) := by
  cases cond with
  | none => exact fun _ _ => rfl
  | some c => exact fun _ _ => rfl

/-- **A simple statement leaves the blocks as they are.** -/
theorem simple_plain (st : State) (s : Simple) : Plain (simple_text st s) := by
  cases s with
  | return_none =>
      show Plain (if _ then _ else _)
      split
      · exact fun _ _ => rfl
      · exact fun _ _ => rfl
  | self_field field vexpr =>
      show Plain (if _ then _ else _)
      split
      · exact fun _ _ => rfl
      · exact fun _ _ => rfl
  | print fmt_str val_list =>
      cases val_list with
      | none => exact fun _ _ => rfl
      | some vals => exact fun _ _ => rfl
  | comprehension vstart item_expr var_item iter cond =>
      intro indent open_
      have hinit : Plain [[Piece.lit "    len_", .arg vstart, .lit " = 0;\n"]] := fun _ _ => rfl
      have hend : Closes [[.lit "    \x7d\n"]] := fun _ open_ => by
        cases open_ with
        | nil => rfl
        | cons top open_ => rfl
      rw [simple_text, scan_append, hinit, Option.bind_some, scan_append,
        comprehension_loop_opens, Option.bind_some, scan_append, comprehension_body_plain,
        Option.bind_some, hend]
      rfl
  | dict_item kind vstart d_key vexpr => exact dict_set_plain kind vstart d_key vexpr
  | dict_literal vstart pairs =>
      have hinit : Plain [[Piece.lit "    py_dict_init(&", .arg vstart, .lit ");\n"]] :=
        fun _ _ => rfl
      have hpairs := Plain.flatMap pairs fun p => dict_set_plain p.1 vstart p.2.1 p.2.2
      rw [← List.map_eq_flatMap] at hpairs
      exact hinit.append hpairs
  | _ => exact fun _ _ => rfl

theorem params_plain (args : List String) : Plain (params args) := by
  cases args with
  | nil => exact fun _ _ => rfl
  | cons arg args =>
      have hfirst : Plain [[Piece.lit "int64_t ", .arg arg]] := fun _ _ => rfl
      have hmore : Plain (more_params args) := Plain.flatMap args fun arg _ _ => rfl
      exact hfirst.append hmore

theorem def_opens (fn_name : String) (args : List String) :
    Opens ([.lit "\nint64_t ", .arg fn_name, .lit "("] ::
      (params args ++ [[.lit ") \x7b\n"]])) := by
  have hname : Plain [[Piece.lit "\nint64_t ", .arg fn_name, .lit "("]] := fun _ _ => rfl
  have hbody : Opens [[.lit ") \x7b\n"]] := fun _ _ => rfl
  exact hname.then_opens ((params_plain args).then_opens hbody)

/-! ## The open blocks of a state -/

/-- The buffer that is written to, and the open blocks of both. -/
structure Flow where
  inside : Bool
  func : List ℕ
  main : List ℕ

/-- `none` when one of the texts closes a block that is not open. -/
def flow (st : State) : Option Flow :=
  (open_blocks st.func_buffer).bind fun f =>
    (open_blocks st.main_buffer).map fun m => ⟨st.inside_function, f, m⟩

/-- Text for the buffer that is written to. -/
def Flow.on (s : Flow) (text : List ℕ → Option (List ℕ)) : Option Flow :=
  if s.inside = true then (text s.func).map fun f => { s with func := f }
  else (text s.main).map fun m => { s with main := m }

theorem Flow.on_on (s : Flow) (text text' : List ℕ → Option (List ℕ)) :
    (s.on text).bind (fun s => s.on text') = s.on fun open_ => (text open_).bind text' := by
  unfold Flow.on
  split
  · next h =>
      dsimp only
      cases text s.func with
      | none => rfl
      | some f => exact if_pos h
  · next h =>
      dsimp only
      cases text s.main with
      | none => rfl
      | some m => exact if_neg h

theorem Flow.on_plain (s : Flow) : s.on some = some s := by
  unfold Flow.on
  split
  · rfl
  · rfl

/-- What `emit` leaves alone. -/
structure SameStack (st st' : State) : Prop where
  active_class : st'.active_class = st.active_class
  blocks : st'.blocks = st.blocks
  pending : st'.pending = st.pending
  inside_function : st'.inside_function = st.inside_function

theorem SameStack.refl (st : State) : SameStack st st := ⟨rfl, rfl, rfl, rfl⟩

theorem SameStack.trans {st st' st'' : State} (h : SameStack st st') (h' : SameStack st' st'') :
    SameStack st st'' :=
  ⟨h'.1.trans h.1, h'.2.trans h.2, h'.3.trans h.3, h'.4.trans h.4⟩

theorem emit_same (indent : ℕ) (st : State) (fragment : Fragment) :
    SameStack st (emit indent st fragment) := by
  unfold emit
  split
  · exact ⟨rfl, rfl, rfl, rfl⟩
  split
  · split
    · exact ⟨rfl, rfl, rfl, rfl⟩
    · exact ⟨rfl, rfl, rfl, rfl⟩
  · split
    · exact ⟨rfl, rfl, rfl, rfl⟩
    · exact ⟨rfl, rfl, rfl, rfl⟩

theorem emits_same (indent : ℕ) (fragments : List Fragment) (st : State) :
    SameStack st (emits indent fragments st) := by
  induction fragments generalizing st with
  | nil => exact SameStack.refl st
  | cons f fragments ih => exact (emit_same indent st f).trans (ih _)

theorem open_blocks_append (buffer : Buffer) (f : ℕ × Fragment) :
    open_blocks (buffer ++ [f]) = (open_blocks buffer).bind fun open_ => scan_fragment open_ f := by
  rw [open_blocks, List.foldlM_append, ← open_blocks]
  cases open_blocks buffer with
  | none => rfl
  | some open_ =>
      show (scan_fragment open_ f).bind some = _
      rw [Option.bind_fun_some]
      rfl

/-- A fragment that is not dropped. -/
theorem emit_flow {indent : ℕ} {st : State} {fragment : Fragment}
    (h : (emit indent st fragment).reported = false) :
    st.reported = false ∧ flow (emit indent st fragment) =
      (flow st).bind fun s => s.on fun open_ => scan_fragment open_ (indent, fragment) := by
  unfold emit at h ⊢
  split at h
  · exact absurd h.symm Bool.false_ne_true
  rw [if_neg (by assumption)]
  split at h
  · next hinside =>
      split at h
      · exact absurd h.symm Bool.false_ne_true
      rw [if_pos hinside, if_neg (by assumption)]
      refine ⟨h, ?_⟩
      unfold flow
      rw [open_blocks_append]
      cases open_blocks st.func_buffer with
      | none => rfl
      | some f =>
          cases open_blocks st.main_buffer with
          | none =>
              show (scan_fragment f (indent, fragment)).bind (fun _ => none) = none
              cases scan_fragment f (indent, fragment) with
              | none => rfl
              | some f' => rfl
          | some m =>
              refine Eq.trans ?_ (if_pos hinside).symm
              exact Option.map_eq_bind.symm
  · next hinside =>
      split at h
      · exact absurd h.symm Bool.false_ne_true
      rw [if_neg hinside, if_neg (by assumption)]
      refine ⟨h, ?_⟩
      unfold flow
      rw [open_blocks_append]
      cases open_blocks st.func_buffer with
      | none => rfl
      | some f =>
          cases open_blocks st.main_buffer with
          | none => rfl
          | some m => exact (if_neg hinside).symm

/-- **What a line prints acts on the blocks of the buffer that is written to.** -/
theorem emits_flow {indent : ℕ} {fragments : List Fragment} {st : State}
    (h : (emits indent fragments st).reported = false) :
    st.reported = false ∧ flow (emits indent fragments st) =
      (flow st).bind fun s => s.on (scan indent fragments) := by
  induction fragments generalizing st with
  | nil =>
      have hplain : (fun s : Flow => s.on (scan indent [])) = some :=
        funext fun s => s.on_plain
      rw [hplain, Option.bind_fun_some]
      exact ⟨h, rfl⟩
  | cons f fragments ih =>
      obtain ⟨hf, hrest⟩ := ih h
      obtain ⟨hst, hemit⟩ := emit_flow hf
      refine ⟨hst, ?_⟩
      show flow (emits indent fragments (emit indent st f)) = _
      rw [hrest, hemit, Option.bind_assoc]
      congr 1
      funext s
      rw [Flow.on_on]
      exact congrArg s.on (funext fun open_ => (scan_cons indent f fragments open_).symm)

theorem flow_inside {st : State} {inside : Bool} :
    flow { st with inside_function := inside } =
      (flow st).map fun s => { s with inside := inside } := by
  unfold flow
  cases open_blocks st.func_buffer with
  | none => rfl
  | some f =>
      cases open_blocks st.main_buffer with
      | none => rfl
      | some m => rfl

/-! ## What a step does to a state -/

/-- From one state to the other nothing is reported, the stack becomes `blocks` and `pending`, and
the open blocks change by `act`. -/
structure Takes (st st' : State) (blocks : List Block) (pending : Option (block_type_t × String))
    (act : Flow → Option Flow) : Prop where
  reported : st.reported = false
  active_class : st'.active_class = st.active_class
  blocks_eq : st'.blocks = blocks
  pending_eq : st'.pending = pending
  flow_eq : flow st' = (flow st).bind act

theorem emits_takes {indent : ℕ} {fragments : List Fragment} {st : State}
    (h : (emits indent fragments st).reported = false) :
    Takes st (emits indent fragments st) st.blocks st.pending
      fun s => s.on (scan indent fragments) where
  reported := (emits_flow h).1
  active_class := (emits_same indent fragments st).active_class
  blocks_eq := (emits_same indent fragments st).blocks
  pending_eq := (emits_same indent fragments st).pending
  flow_eq := (emits_flow h).2

/-! ## Dedents -/

def is_func (b : Block) : Bool := b.block_type = .BLOCK_FUNC

/-- The block on top is closed. What is behind a function is not inside of one, as the translator
has it. -/
def Flow.close (s : Flow) (func : Bool) : Option Flow :=
  (s.on List.tail?).map fun s => { s with inside := s.inside && !func }

def Flow.close_all (blocks : List Block) (s : Flow) : Option Flow :=
  blocks.foldlM (fun s b => s.close (is_func b)) s

theorem Flow.close_all_cons (b : Block) (blocks : List Block) (s : Flow) :
    Flow.close_all (b :: blocks) s = (s.close (is_func b)).bind (Flow.close_all blocks) :=
  List.foldlM_cons

/-- The blocks of a program without classes and context managers. -/
def supported_block (b : Block) : Bool :=
  b.block_type ∉ [.BLOCK_INIT, .BLOCK_CLASS, .BLOCK_WITH]

/-- The blocks that a clause may leave open for itself. -/
def is_silent (b : Block) : Bool := b.block_type = .BLOCK_IF ∨ b.block_type = .BLOCK_LOOP

theorem closes_takes {indent : ℕ} {text : String} (hcloses : Closes [[.lit text]]) {st : State}
    (h : (emits indent [[.lit text]] st).reported = false) :
    Takes st (emits indent [[.lit text]] st) st.blocks st.pending fun s => s.close false := by
  have htakes := emits_takes h
  have hact : (fun s : Flow => s.on (scan indent [[.lit text]])) = fun s => s.close false := by
    funext s
    have hscan : scan indent [[.lit text]] = List.tail? := funext fun o => hcloses indent o
    rw [hscan, Flow.close]
    simp only [Bool.not_false, Bool.and_true, Option.map_id']
  rwa [hact] at htakes

theorem closes_text {text : String}
    (hnil : ∀ indent, scan indent [[.lit text]] [] = none)
    (hcons : ∀ indent top open_, scan indent [[.lit text]] (top :: open_) = some open_) :
    Closes [[.lit text]] := by
  intro indent open_
  cases open_ with
  | nil => exact hnil indent
  | cons top open_ => exact hcons indent top open_

/-- A block that is closed, and not left to the clause behind it. -/
theorem close_block_takes {indent : ℕ} {flag : Bool} {b : Block} (hb : supported_block b = true)
    {st : State} (hloud : flag = true → st.blocks = [] → is_silent b = false)
    (h : (close_block indent flag b st).reported = false) :
    Takes st (close_block indent flag b st) st.blocks st.pending fun s => s.close (is_func b) := by
  have hend : Closes [[.lit "    \x7d\n"]] := closes_text (fun _ => rfl) fun _ _ _ => rfl
  have hcond : is_silent b = true → flag = false ∨ st.blocks ≠ [] := by
    intro hsilent
    by_contra hnot
    push Not at hnot
    rw [hloud ((Bool.not_eq_false _).mp hnot.1) hnot.2] at hsilent
    exact Bool.false_ne_true hsilent
  obtain ⟨block_indent, block_type, block_var⟩ := b
  cases block_type with
  | BLOCK_FUNC =>
      have hbrace : Closes [[.lit "\x7d\n"]] := closes_text (fun _ => rfl) fun _ _ _ => rfl
      have hemit : (emits indent [[.lit "\x7d\n"]] st).reported = false := h
      have htakes := closes_takes hbrace hemit
      refine ⟨htakes.reported, htakes.active_class, htakes.blocks_eq, htakes.pending_eq, ?_⟩
      show flow { emits indent [[.lit "\x7d\n"]] st with inside_function := false } = _
      rw [flow_inside, htakes.flow_eq, Option.map_bind]
      congr 1
      funext s
      simp only [Flow.close, Function.comp_apply, Option.map_map, is_func, decide_true,
        Bool.not_true, Bool.and_false]
      rfl
  | BLOCK_IF =>
      have hemit : close_block indent flag ⟨block_indent, .BLOCK_IF, block_var⟩ st =
          emits indent [[.lit "    \x7d\n"]] st := if_pos (hcond rfl)
      rw [hemit] at h ⊢
      exact closes_takes hend h
  | BLOCK_LOOP =>
      have hemit : close_block indent flag ⟨block_indent, .BLOCK_LOOP, block_var⟩ st =
          emits indent [[.lit "    \x7d\n"]] st := if_pos (hcond rfl)
      rw [hemit] at h ⊢
      exact closes_takes hend h
  | BLOCK_TRY => exact closes_takes (closes_text (fun _ => rfl) fun _ _ _ => rfl) h
  | BLOCK_EXCEPT => exact closes_takes hend h
  | BLOCK_INIT => exact absurd hb Bool.false_ne_true
  | BLOCK_CLASS => exact absurd hb Bool.false_ne_true
  | BLOCK_WITH => exact absurd hb Bool.false_ne_true

theorem close_block_reported {indent : ℕ} {flag : Bool} {b : Block} {st : State}
    (h : (close_block indent flag b st).reported = false) : st.reported = false := by
  unfold close_block at h
  split at h
  · have hemit : (emits indent [[.lit "    return self;\n"], [.lit "\x7d\n"]] st).reported =
      false := h
    exact (emits_flow hemit).1
  · have hemit : (emits indent [[.lit "\x7d\n"]] st).reported = false := h
    exact (emits_flow hemit).1
  · exact h
  · exact (emits_flow h).1
  · exact (emits_flow h).1
  · exact (emits_flow h).1
  · split at h
    · exact (emits_flow h).1
    · exact h
  · split at h
    · exact (emits_flow h).1
    · exact h

theorem pop_blocks_reported {new_indent : ℕ} {flag : Bool} {blocks : List Block} {st : State}
    (h : (pop_blocks new_indent flag blocks st).reported = false) : st.reported = false := by
  induction blocks generalizing st with
  | nil => exact h
  | cons b blocks ih =>
      rw [pop_blocks] at h
      split at h
      · have hclose := close_block_reported (ih h)
        exact hclose
      · exact h

/-- The blocks in front are closed one by one. -/
theorem pop_blocks_append {new_indent : ℕ} {flag : Bool} {inner rest : List Block}
    (hinner : ∀ b ∈ inner, new_indent < b.block_indent ∧ supported_block b = true)
    (hloud : flag = true → rest = [] → ∀ b, inner.getLast? = some b → is_silent b = false)
    {st : State} (h : (pop_blocks new_indent flag (inner ++ rest) st).reported = false) :
    ∃ st', pop_blocks new_indent flag (inner ++ rest) st = pop_blocks new_indent flag rest st' ∧
      Takes st st' (if inner = [] then st.blocks else rest) st.pending (Flow.close_all inner) := by
  induction inner generalizing st with
  | nil =>
      refine ⟨st, rfl, pop_blocks_reported h, rfl, rfl, rfl, ?_⟩
      exact (Option.bind_fun_some _).symm
  | cons b inner ih =>
      rw [List.forall_mem_cons] at hinner
      have hpop : pop_blocks new_indent flag (b :: inner ++ rest) st =
          pop_blocks new_indent flag (inner ++ rest)
            (close_block new_indent flag b { st with blocks := inner ++ rest }) :=
        if_pos hinner.1.1
      rw [hpop] at h ⊢
      have hlast : flag = true → ({ st with blocks := inner ++ rest } : State).blocks = [] →
          is_silent b = false := by
        intro hflag hnil
        obtain ⟨rfl, hrest⟩ := List.append_eq_nil_iff.mp hnil
        exact hloud hflag hrest b rfl
      have hclose := close_block_takes hinner.1.2 hlast (pop_blocks_reported h)
      obtain ⟨st', heq, htakes⟩ := ih hinner.2 (fun hflag hrest c hc =>
        hloud hflag hrest c (by rw [List.getLast?_cons, hc]; rfl)) h
      refine ⟨st', heq, hclose.reported, ?_, ?_, ?_, ?_⟩
      · exact htakes.active_class.trans hclose.active_class
      · rw [htakes.blocks_eq, if_neg (List.cons_ne_nil _ _)]
        split
        · next hnil => rw [hclose.blocks_eq, hnil, List.nil_append]
        · rfl
      · exact htakes.pending_eq.trans hclose.pending_eq
      · have hcons : Flow.close_all (b :: inner) =
            fun s => (s.close (is_func b)).bind (Flow.close_all inner) :=
          funext fun s => Flow.close_all_cons b inner s
        rw [htakes.flow_eq, hclose.flow_eq, Option.bind_assoc, hcons]
        rfl

/-- **A dedent closes the blocks that are deeper.** -/
theorem pop_blocks_takes {new_indent : ℕ} {flag : Bool} {inner rest : List Block}
    (hinner : ∀ b ∈ inner, new_indent < b.block_indent ∧ supported_block b = true)
    (hrest : ∀ b, rest.head? = some b → b.block_indent ≤ new_indent)
    (hloud : flag = true → rest = [] → ∀ b, inner.getLast? = some b → is_silent b = false)
    {st : State} (h : (pop_blocks new_indent flag (inner ++ rest) st).reported = false) :
    Takes st (pop_blocks new_indent flag (inner ++ rest) st) rest st.pending
      (Flow.close_all inner) := by
  obtain ⟨st', heq, htakes⟩ := pop_blocks_append hinner hloud h
  have hstop : pop_blocks new_indent flag rest st' = { st' with blocks := rest } := by
    cases rest with
    | nil => rfl
    | cons b rest => exact if_neg (Nat.not_lt_of_le (hrest b rfl))
  rw [heq, hstop]
  exact ⟨htakes.reported, htakes.active_class, rfl, htakes.pending_eq, htakes.flow_eq⟩

/-- In front of a clause on the outermost level the last block stays open. -/
theorem pop_blocks_clause {new_indent : ℕ} {inner : List Block} {last : Block}
    (hinner : ∀ b ∈ inner, new_indent < b.block_indent ∧ supported_block b = true)
    (hlast : new_indent < last.block_indent ∧ is_silent last = true) {st : State}
    (h : (pop_blocks new_indent true (inner ++ [last]) st).reported = false) :
    Takes st (pop_blocks new_indent true (inner ++ [last]) st) [] st.pending
      (Flow.close_all inner) := by
  obtain ⟨st', heq, htakes⟩ := pop_blocks_append hinner
    (fun _ hnil => absurd hnil (List.cons_ne_nil _ _)) h
  have hstop : pop_blocks new_indent true [last] st' = { st' with blocks := [] } := by
    have hsilent := hlast.2
    rw [pop_blocks, if_pos hlast.1]
    obtain ⟨block_indent, block_type, block_var⟩ := last
    cases block_type with
    | BLOCK_IF => rfl
    | BLOCK_LOOP => rfl
    | _ => exact absurd hsilent Bool.false_ne_true
  rw [heq, hstop]
  exact ⟨htakes.reported, htakes.active_class, rfl, htakes.pending_eq, htakes.flow_eq⟩

/-! ## Lines -/

/-- Lines without classes and context managers. -/
def supported_line : Line → Bool
  | .with_open _ _ => false
  | .class_ _ => false
  | _ => true

/-- The block that a line opens. -/
def header_block : Line → Option block_type_t
  | .with_open _ _ => some .BLOCK_WITH
  | .try_ => some .BLOCK_TRY
  | .except_ => some .BLOCK_EXCEPT
  | .class_ _ => some .BLOCK_CLASS
  | .def_ _ _ => some .BLOCK_FUNC
  | .for_ _ _ => some .BLOCK_LOOP
  | .while_ _ => some .BLOCK_LOOP
  | .if_ _ => some .BLOCK_IF
  | .elif_ _ => some .BLOCK_IF
  | .else_ => some .BLOCK_IF
  | .simple _ => none

/-- What a line itself does to the open blocks. -/
def line_flow (indent : ℕ) (line : Line) (s : Flow) : Option Flow :=
  match line with
  | .simple _ => some s
  | .def_ _ _ => { s with inside := true }.on fun open_ => some (indent :: open_)
  | .elif_ _ => s.on fun open_ => open_.tail?.map (indent :: ·)
  | .else_ => s.on fun open_ => open_.tail?.map (indent :: ·)
  | _ => s.on fun open_ => some (indent :: open_)

theorem header_takes {indent : ℕ} {block : block_type_t} {fragments : List Fragment}
    {text : List ℕ → Option (List ℕ)} (htext : ∀ open_, scan indent fragments open_ = text open_)
    {st : State} (h : (transpile_header indent block "" fragments st).reported = false) :
    Takes st (transpile_header indent block "" fragments st) st.blocks (some (block, ""))
      fun s => s.on text := by
  have hemit : (emits indent fragments st).reported = false := h
  have htakes := emits_takes hemit
  rw [show scan indent fragments = text from funext htext] at htakes
  exact ⟨htakes.reported, htakes.active_class, htakes.blocks_eq, rfl, htakes.flow_eq⟩

theorem turns_text {fragments : List Fragment}
    (hnil : ∀ indent, scan indent fragments [] = none)
    (hcons : ∀ indent top open_, scan indent fragments (top :: open_) = some (indent :: open_)) :
    Turns fragments := by
  intro indent open_
  cases open_ with
  | nil => exact hnil indent
  | cons top open_ => exact hcons indent top open_

theorem simple_takes {indent : ℕ} {s : Simple} {st : State}
    (h : (transpile_simple indent s st).reported = false) :
    Takes st (transpile_simple indent s st) st.blocks st.pending some := by
  have hplain (st' : State) : (fun t : Flow => t.on (scan indent (simple_text st s))) = some := by
    funext t
    rw [show scan indent (simple_text st s) = some from funext (simple_plain st s indent)]
    exact t.on_plain
  have hgeneral (hs : transpile_simple indent s st = emits indent (simple_text st s) st) :
      Takes st (transpile_simple indent s st) st.blocks st.pending some := by
    rw [hs] at h ⊢
    have htakes := emits_takes h
    rwa [hplain st] at htakes
  cases s with
  | lambda vstart fn_decl l_body =>
      -- the text goes to the functions, and the flag is put back
      have hemit : (emits indent (simple_text st (.lambda vstart fn_decl l_body))
        { st with inside_function := true }).reported = false := h
      have htakes := emits_takes hemit
      have hsimple : transpile_simple indent (.lambda vstart fn_decl l_body) st
          = { emits indent (simple_text st (.lambda vstart fn_decl l_body))
                { st with inside_function := true } with
              inside_function := st.inside_function } := rfl
      rw [hplain st] at htakes
      rw [hsimple]
      generalize emits indent (simple_text st (.lambda vstart fn_decl l_body))
        { st with inside_function := true } = res at htakes ⊢
      refine ⟨htakes.reported, htakes.active_class, htakes.blocks_eq, htakes.pending_eq, ?_⟩
      have hflow := htakes.flow_eq
      rw [Option.bind_fun_some] at hflow ⊢
      rw [flow_inside, hflow, flow_inside, Option.map_map]
      unfold flow
      cases open_blocks st.func_buffer with
      | none => rfl
      | some f =>
          cases open_blocks st.main_buffer with
          | none => rfl
          | some m => rfl
  | _ => exact hgeneral rfl

theorem def_takes {indent : ℕ} {fn_name : String} {args : List String} {st : State}
    (hclass : st.active_class = "")
    (h : (transpile_def indent fn_name args st).reported = false) :
    Takes st (transpile_def indent fn_name args st) st.blocks (some (.BLOCK_FUNC, ""))
      (line_flow indent (.def_ fn_name args)) := by
  have hdef : transpile_def indent fn_name args st =
      { emits indent ([.lit "\nint64_t ", .arg fn_name, .lit "("] ::
        (params args ++ [[.lit ") \x7b\n"]])) { st with inside_function := true } with
        pending := some (.BLOCK_FUNC, "") } := by
    unfold transpile_def
    dsimp only
    rw [if_neg (fun hnot => hnot.1 hclass), if_neg (fun hnot => hnot hclass)]
  rw [hdef] at h ⊢
  have hemit : (emits indent ([.lit "\nint64_t ", .arg fn_name, .lit "("] ::
    (params args ++ [[.lit ") \x7b\n"]])) { st with inside_function := true }).reported = false := h
  have htakes := emits_takes hemit
  refine ⟨htakes.reported, htakes.active_class, htakes.blocks_eq, rfl, ?_⟩
  have hstart : flow { st with inside_function := true } =
      (flow st).map fun s => { s with inside := true } := flow_inside
  have hflow := htakes.flow_eq
  rw [hstart, Option.bind_map] at hflow
  refine hflow.trans ?_
  congr 1
  funext s
  exact congrArg (Flow.on _) (funext (def_opens fn_name args indent))

theorem transpile_form_reported {indent : ℕ} {line : Line} (hline : supported_line line = true)
    {st : State} (h : (transpile_form indent line st).reported = false) :
    st.reported = false := by
  have hheader {block : block_type_t} {fragments : List Fragment}
      (h : (transpile_header indent block "" fragments st).reported = false) :
      st.reported = false := by
    have hemit : (emits indent fragments st).reported = false := h
    exact (emits_flow hemit).1
  cases line with
  | with_open _ _ => exact absurd hline Bool.false_ne_true
  | class_ _ => exact absurd hline Bool.false_ne_true
  | def_ fn_name args =>
      have hdef {fragments : List Fragment}
          (h : (emits indent fragments { st with inside_function := true }).reported = false) :
          st.reported = false := (emits_flow h).1
      have hreported : (transpile_def indent fn_name args st).reported = false := h
      unfold transpile_def at hreported
      dsimp only at hreported
      split at hreported
      · exact hdef hreported
      split at hreported
      · exact hdef hreported
      · exact hdef hreported
  | simple s => exact (simple_takes h).reported
  | _ => exact hheader h

/-- **What a line prints.** -/
theorem transpile_form_takes {indent : ℕ} {line : Line} (hline : supported_line line = true)
    {st : State} (hclass : st.active_class = "") (hpending : st.pending = none)
    (h : (transpile_form indent line st).reported = false) :
    Takes st (transpile_form indent line st) st.blocks
      ((header_block line).map fun block => (block, "")) (line_flow indent line) := by
  cases line with
  | with_open _ _ => exact absurd hline Bool.false_ne_true
  | class_ _ => exact absurd hline Bool.false_ne_true
  | try_ => exact header_takes (fun _ => rfl) h
  | except_ => exact header_takes (fun _ => rfl) h
  | def_ fn_name args => exact def_takes hclass h
  | for_ var_name args => exact header_takes (for_header_opens "" _ (Or.inl rfl) _ _) h
  | while_ cond => exact header_takes (fun _ => rfl) h
  | if_ cond => exact header_takes (fun _ => rfl) h
  | elif_ cond => exact header_takes (turns_text (fun _ => rfl) (fun _ _ _ => rfl) _) h
  | else_ => exact header_takes (turns_text (fun _ => rfl) (fun _ _ _ => rfl) _) h
  | simple s =>
      have htakes := simple_takes h
      rw [hpending] at htakes
      exact htakes

end SysInC.PythontLegacy
