/-
The layout of a Python program, and that the line translator's stack follows it.

`enclosing` says by indentation alone which headers a line is inside of. `place` reads a program as
Python does: the first line behind a header sets the indentation of its block, a line goes back to
the indentation of a block that is open, and a clause goes on with the statement that ends there.
-/
import SysInC.PythontBlocks
import Mathlib.Data.List.TakeWhile

set_option autoImplicit false

namespace SysInC.PythontLegacy

/-! ## Programs -/

def is_header (l : SourceLine) : Bool := (header_block l.line).isSome

def is_def (l : SourceLine) : Bool := header_block l.line = some .BLOCK_FUNC

/-- The headers that a line is inside of, and the line itself if it is one, the innermost first. -/
def enter (headers : List SourceLine) (l : SourceLine) : List SourceLine :=
  (if is_header l = true then [l] else []) ++ headers.dropWhile fun h => l.indent ≤ h.indent

def enclosing (lines : List SourceLine) : List SourceLine := lines.foldl enter []

/-- A header with the indentation of its block. -/
structure Frame where
  header : SourceLine
  body : ℕ

/-- Where the next line stands: in some blocks, the innermost first, and possibly behind a header
that still waits for its block. -/
structure Place where
  frames : List Frame
  waiting : Option SourceLine

def Place.start : Place := ⟨[], none⟩

/-- The indentation of the innermost block. -/
def body_of : List Frame → ℕ
  | [] => 0
  | f :: _ => f.body

def is_turn (line : Line) : Bool := is_else line || is_elif line

/-- Whether a line may stand behind the statement that ends in front of it. -/
def continues (line : Line) (last : Option Line) : Bool :=
  match line, last with
  | .else_, some (.if_ _) => true
  | .else_, some (.elif_ _) => true
  | .else_, _ => false
  | .elif_ _, some (.if_ _) => true
  | .elif_ _, some (.elif_ _) => true
  | .elif_ _, _ => false
  | .except_, some .try_ => true
  | .except_, some .except_ => true
  | .except_, _ => false
  | _, _ => true

def waits (l : SourceLine) : Option SourceLine := if is_header l = true then some l else none

/-- The blocks that end in front of a line. -/
def ended (frames : List Frame) (l : SourceLine) : List Frame :=
  frames.takeWhile fun f => l.indent < f.body

def kept (frames : List Frame) (l : SourceLine) : List Frame :=
  frames.dropWhile fun f => l.indent < f.body

def place (p : Place) (l : SourceLine) : Option Place :=
  match p.waiting with
  | some h =>
      if h.indent < l.indent ∧ continues l.line none = true then
        some ⟨⟨h, l.indent⟩ :: p.frames, waits l⟩
      else none
  | none =>
      if l.indent = body_of (kept p.frames l) ∧
        continues l.line ((ended p.frames l).getLast?.map fun f => f.header.line) = true then
        some ⟨kept p.frames l, waits l⟩
      else none

/-- A program of the supported statements, each line where Python wants it. -/
structure WellIndented (lines : List SourceLine) : Prop where
  supported : ∀ l ∈ lines, supported_line l.line = true
  layout : ∃ frames, lines.foldlM place Place.start = some ⟨frames, none⟩

/-! ## Places -/

def Place.headers (p : Place) : List SourceLine := p.waiting.toList ++ p.frames.map Frame.header

/-- Each block is deeper than its header, which stands in the block around it. -/
def Nested : List Frame → Prop
  | [] => True
  | f :: frames => is_header f.header = true ∧ supported_line f.header.line = true ∧
      f.header.indent = body_of frames ∧ f.header.indent < f.body ∧ Nested frames

structure Place.Valid (p : Place) : Prop where
  nested : Nested p.frames
  waiting : ∀ h, p.waiting = some h → is_header h = true ∧ supported_line h.line = true ∧
    h.indent = body_of p.frames

theorem Nested.kept {frames : List Frame} (h : Nested frames) (l : SourceLine) :
    Nested (kept frames l) := by
  induction frames with
  | nil => exact trivial
  | cons f frames ih =>
      unfold PythontLegacy.kept
      rw [List.dropWhile_cons]
      split
      · exact ih h.2.2.2.2
      · exact h

theorem Nested.mem {frames : List Frame} (h : Nested frames) {f : Frame} (hf : f ∈ frames) :
    is_header f.header = true ∧ supported_line f.header.line = true := by
  induction frames with
  | nil => exact absurd hf List.not_mem_nil
  | cons g frames ih =>
      rcases List.mem_cons.mp hf with rfl | hf
      · exact ⟨h.1, h.2.1⟩
      · exact ih h.2.2.2.2 hf

theorem Nested.deeper {frames : List Frame} (h : Nested frames) {f : Frame} (hf : f ∈ frames) :
    0 < f.body := by
  induction frames with
  | nil => exact absurd hf List.not_mem_nil
  | cons g frames ih =>
      rcases List.mem_cons.mp hf with rfl | hf
      · exact Nat.zero_lt_of_lt h.2.2.2.1
      · exact ih h.2.2.2.2 hf

theorem Nested.body_pos {frames : List Frame} (h : Nested frames) (hne : frames ≠ []) :
    0 < body_of frames := by
  cases frames with
  | nil => exact absurd rfl hne
  | cons f frames => exact h.deeper List.mem_cons_self

theorem waits_eq_some {l h : SourceLine} (hw : waits l = some h) : h = l ∧ is_header l = true := by
  unfold waits at hw
  split at hw
  · next hheader => exact ⟨(Option.some.inj hw).symm, hheader⟩
  · exact nomatch hw

/-- What a place is read to be behind one more line. -/
theorem place_eq_some {p p' : Place} {l : SourceLine} (h : place p l = some p') :
    (∃ hd, p.waiting = some hd ∧ hd.indent < l.indent ∧ continues l.line none = true ∧
      p' = ⟨⟨hd, l.indent⟩ :: p.frames, waits l⟩) ∨
    (p.waiting = none ∧ l.indent = body_of (kept p.frames l) ∧
      continues l.line ((ended p.frames l).getLast?.map fun f => f.header.line) = true ∧
      p' = ⟨kept p.frames l, waits l⟩) := by
  unfold place at h
  split at h
  · next hd hwaiting =>
      split at h
      · next hcond => exact Or.inl ⟨hd, hwaiting, hcond.1, hcond.2, (Option.some.inj h).symm⟩
      · exact nomatch h
  · next hwaiting =>
      split at h
      · next hcond => exact Or.inr ⟨hwaiting, hcond.1, hcond.2, (Option.some.inj h).symm⟩
      · exact nomatch h

theorem place_valid {p p' : Place} {l : SourceLine} (hp : p.Valid)
    (hl : supported_line l.line = true) (h : place p l = some p') :
    p'.Valid ∧ p'.waiting = waits l ∧ l.indent = body_of p'.frames := by
  obtain ⟨hd, hwaiting, hindent, -, rfl⟩ | ⟨hwaiting, hindent, -, rfl⟩ := place_eq_some h
  · obtain ⟨hheader, hsupported, hbody⟩ := hp.waiting hd hwaiting
    refine ⟨⟨⟨hheader, hsupported, hbody, hindent, hp.nested⟩, fun h' hw => ?_⟩, rfl, rfl⟩
    obtain ⟨rfl, hheader⟩ := waits_eq_some hw
    exact ⟨hheader, hl, rfl⟩
  · refine ⟨⟨hp.nested.kept l, fun h' hw => ?_⟩, rfl, hindent⟩
    obtain ⟨rfl, hheader⟩ := waits_eq_some hw
    exact ⟨hheader, hl, hindent⟩

/-- The blocks that go are those with headers that are not indented less. -/
theorem dropWhile_headers {frames : List Frame} (hnested : Nested frames) {l : SourceLine}
    (hindent : l.indent = body_of (kept frames l)) :
    (frames.map Frame.header).dropWhile (fun h => l.indent ≤ h.indent) =
      (kept frames l).map Frame.header := by
  induction frames with
  | nil => rfl
  | cons f frames ih =>
      obtain ⟨-, -, hheader, hbody, hnested⟩ := hnested
      unfold kept at hindent ⊢
      rw [List.dropWhile_cons] at hindent ⊢
      rw [List.map_cons, List.dropWhile_cons]
      by_cases hdeeper : l.indent < f.body
      · rw [if_pos (decide_eq_true hdeeper)] at hindent ⊢
        have hle : l.indent ≤ f.header.indent := by
          rw [hheader]
          cases frames with
          | nil => exact Nat.le_of_eq hindent
          | cons g frames =>
              rw [List.dropWhile_cons] at hindent
              split at hindent
              · next hg => exact Nat.le_of_lt (of_decide_eq_true hg)
              · exact Nat.le_of_eq hindent
        rw [if_pos (decide_eq_true hle)]
        exact ih hnested hindent
      · have hstop : ¬decide (l.indent < f.body) = true := fun h => hdeeper (of_decide_eq_true h)
        rw [if_neg hstop] at hindent ⊢
        have hlt : f.header.indent < l.indent := by
          rw [hindent]
          exact hbody
        rw [if_neg fun h => Nat.not_le_of_lt hlt (of_decide_eq_true h)]
        rfl

/-- **A place knows the headers that its line is inside of.** -/
theorem place_headers {p p' : Place} {l : SourceLine} (hp : p.Valid) (h : place p l = some p') :
    p'.headers = enter p.headers l := by
  have hown : (waits l).toList = if is_header l = true then [l] else [] := by
    unfold waits
    split
    · rfl
    · rfl
  obtain ⟨hd, hwaiting, hindent, -, rfl⟩ | ⟨hwaiting, hindent, -, rfl⟩ := place_eq_some h
  · unfold Place.headers enter
    rw [hwaiting, hown]
    show _ ++ hd :: p.frames.map Frame.header = _ ++ List.dropWhile _ (hd :: _)
    rw [List.dropWhile_cons_of_neg]
    · rfl
    · exact fun hle => Nat.not_le_of_lt hindent (of_decide_eq_true hle)
  · unfold Place.headers enter
    rw [hwaiting, hown, Option.toList_none, List.nil_append, dropWhile_headers hp.nested hindent]

/-! ## The translator's stack -/

def block_of (h : SourceLine) : block_type_t := (header_block h.line).getD .BLOCK_LOOP

def frame_block (f : Frame) : Block := ⟨f.body, block_of f.header, ""⟩

/-- The stack is that of the place. -/
structure Tracks (p : Place) (st : State) : Prop where
  active_class : st.active_class = ""
  blocks : st.blocks = p.frames.map frame_block
  pending : st.pending = p.waiting.map fun h => (block_of h, "")

theorem block_supported {h : SourceLine} (hheader : is_header h = true)
    (hsupported : supported_line h.line = true) (body : ℕ) :
    supported_block (frame_block ⟨h, body⟩) = true := by
  obtain ⟨indent, line⟩ := h
  cases line with
  | simple s => exact absurd hheader Bool.false_ne_true
  | with_open _ _ => exact absurd hsupported Bool.false_ne_true
  | class_ _ => exact absurd hsupported Bool.false_ne_true
  | _ => rfl

theorem is_func_frame {f : Frame} (h : is_header f.header = true) :
    is_func (frame_block f) = is_def f.header := by
  unfold is_header at h
  obtain ⟨block, hblock⟩ := Option.isSome_iff_exists.mp h
  have htype : (frame_block f).block_type = block := by
    show block_of f.header = block
    rw [block_of, hblock]
    rfl
  rw [is_func, is_def, htype, hblock]
  exact decide_eq_decide.mpr Option.some_inj.symm

/-- The lines that may be left open for a clause. -/
theorem clause_silent {line : Line} {f : Frame}
    (h : continues line (some f.header.line) = true) :
    (is_turn line = true → is_silent (frame_block f) = true ∧ is_def f.header = false) ∧
      (is_except line = true → is_silent (frame_block f) = false) := by
  obtain ⟨⟨indent, header⟩, body⟩ := f
  constructor
  · intro hturn
    cases line with
    | else_ =>
        cases header with
        | if_ _ => exact ⟨rfl, rfl⟩
        | elif_ _ => exact ⟨rfl, rfl⟩
        | _ => exact absurd h Bool.false_ne_true
    | elif_ _ =>
        cases header with
        | if_ _ => exact ⟨rfl, rfl⟩
        | elif_ _ => exact ⟨rfl, rfl⟩
        | _ => exact absurd h Bool.false_ne_true
    | _ => exact absurd hturn Bool.false_ne_true
  · intro hexcept
    cases line with
    | except_ =>
        cases header with
        | try_ => rfl
        | except_ => rfl
        | _ => exact absurd h Bool.false_ne_true
    | _ => exact absurd hexcept Bool.false_ne_true

/-- What stays open on the stack in front of a line's own text: the blocks around it, and with a
clause on the outermost level the block that it goes on from. -/
def Remains (p' : Place) (l : SourceLine) (remaining : List SourceLine) : Prop :=
  (remaining = p'.frames.map Frame.header ∧ (is_turn l.line = true → l.indent ≠ 0)) ∨
    (is_turn l.line = true ∧ l.indent = 0 ∧ p'.frames = [] ∧
      ∃ h, remaining = [h] ∧ is_def h = false)

theorem ended_deeper {frames : List Frame} {l : SourceLine} {f : Frame} (hf : f ∈ ended frames l) :
    f ∈ frames ∧ l.indent < f.body := by
  have hdeeper := List.mem_takeWhile_imp hf
  exact ⟨(List.takeWhile_prefix _).subset hf, of_decide_eq_true hdeeper⟩

theorem kept_head {frames : List Frame} {l : SourceLine} {b : Block}
    (hindent : l.indent = body_of (kept frames l))
    (hb : ((kept frames l).map frame_block).head? = some b) : b.block_indent ≤ l.indent := by
  cases hkept : kept frames l with
  | nil =>
      rw [hkept] at hb
      exact nomatch hb
  | cons f rest =>
      rw [hkept] at hb hindent
      rw [← Option.some.inj hb]
      exact Nat.le_of_eq hindent.symm

/-- The blocks that end are known to the translator. -/
theorem ended_blocks {p : Place} (hp : p.Valid) {l : SourceLine} :
    ∀ b ∈ (ended p.frames l).map frame_block,
      l.indent < b.block_indent ∧ supported_block b = true := by
  intro b hb
  obtain ⟨f, hf, rfl⟩ := List.mem_map.mp hb
  obtain ⟨hmem, hdeeper⟩ := ended_deeper hf
  obtain ⟨hheader, hsupported⟩ := hp.nested.mem hmem
  exact ⟨hdeeper, block_supported hheader hsupported f.body⟩

/-- **The dedent in front of a line.** -/
theorem handle_dedent_takes {p p' : Place} {l : SourceLine} (hp : p.Valid)
    (hplace : place p l = some p') {st : State} (htracks : Tracks p st)
    (h : (handle_dedent l.indent (is_else l.line || is_elif l.line || is_except l.line)
      st).reported = false) :
    ∃ (closed : List Frame) (remaining : List SourceLine) (rest : List Frame),
      p.headers = closed.map Frame.header ++ remaining ∧
      Remains p' l remaining ∧ (∀ f ∈ closed, f ∈ p.frames) ∧
      p'.frames = (p.waiting.toList.map fun hd => ⟨hd, l.indent⟩) ++ rest ∧
      Takes st (handle_dedent l.indent (is_else l.line || is_elif l.line || is_except l.line) st)
        (rest.map frame_block) st.pending (Flow.close_all (closed.map frame_block)) := by
  unfold handle_dedent at h ⊢
  rw [htracks.blocks] at h ⊢
  obtain ⟨hd, hwaiting, hindent, hclause, rfl⟩ | ⟨hwaiting, hindent, hclause, rfl⟩ :=
    place_eq_some hplace
  · -- behind a header nothing ends
    have hnone : ∀ b ∈ ([] : List Block), l.indent < b.block_indent ∧ supported_block b = true :=
      fun b hb => absurd hb List.not_mem_nil
    have hrest : ∀ b, (p.frames.map frame_block).head? = some b → b.block_indent ≤ l.indent := by
      intro b hb
      have hbody := (hp.waiting hd hwaiting).2.2
      cases hframes : p.frames with
      | nil =>
          rw [hframes] at hb
          exact nomatch hb
      | cons f frames =>
          rw [hframes] at hb hbody
          rw [← Option.some.inj hb]
          have hlt : body_of (f :: frames) < l.indent := hbody ▸ hindent
          exact Nat.le_of_lt hlt
    have hturn : is_turn l.line = true → l.indent ≠ 0 := fun _ =>
      Nat.ne_of_gt (Nat.zero_lt_of_lt hindent)
    refine ⟨[], p.headers, p.frames, rfl, Or.inl ⟨?_, hturn⟩, fun f hf => absurd hf
      List.not_mem_nil, ?_, pop_blocks_takes hnone hrest (fun _ _ b hb => nomatch hb) h⟩
    · rw [Place.headers, hwaiting]
      rfl
    · rw [hwaiting]
      rfl
  · have hsplit : p.frames = ended p.frames l ++ kept p.frames l :=
      List.takeWhile_append_dropWhile.symm
    have hheaders : p.headers = (ended p.frames l).map Frame.header ++
        (kept p.frames l).map Frame.header := by
      rw [← List.map_append, ← hsplit, Place.headers, hwaiting]
      rfl
    have hblocks : p.frames.map frame_block =
        (ended p.frames l).map frame_block ++ (kept p.frames l).map frame_block := by
      rw [← List.map_append, ← hsplit]
    have hsub : ∀ f ∈ ended p.frames l, f ∈ p.frames := fun f hf => (ended_deeper hf).1
    by_cases houter : is_turn l.line = true ∧ l.indent = 0
    · -- the outermost statement stays open for its clause
      have hkept : kept p.frames l = [] := by
        by_contra hne
        have hpos := (hp.nested.kept l).body_pos hne
        omega
      obtain ⟨f, hlast⟩ : ∃ f, (ended p.frames l).getLast? = some f := by
        cases hlast : (ended p.frames l).getLast? with
        | none =>
            rw [hlast] at hclause
            have hturn := houter.1
            unfold is_turn is_else is_elif at hturn
            cases hline : l.line <;> rw [hline] at hclause hturn <;>
              exact absurd ‹_› Bool.false_ne_true
        | some f => exact ⟨f, rfl⟩
      rw [hlast] at hclause
      obtain ⟨hsilent, hdef⟩ := (clause_silent hclause).1 houter.1
      obtain ⟨init, hinit⟩ := List.getLast?_eq_some_iff.mp hlast
      have hflag : (is_else l.line || is_elif l.line || is_except l.line) = true := by
        have hturn := houter.1
        rw [is_turn] at hturn
        rw [hturn, Bool.true_or]
      have hall := ended_blocks hp (l := l)
      rw [hkept, List.map_nil, List.append_nil, hinit, List.map_append] at hblocks
      rw [hinit, List.map_append, List.forall_mem_append] at hall
      rw [hblocks, hflag] at h ⊢
      have hmem : f ∈ ended p.frames l := by
        rw [hinit]
        exact List.mem_append_right _ List.mem_cons_self
      refine ⟨init, [f.header], [], ?_, Or.inr ⟨houter.1, houter.2, hkept, f.header, rfl, hdef⟩,
        fun g hg => hsub g ?_, ?_, pop_blocks_clause hall.1 ⟨(ended_deeper hmem).2, hsilent⟩ h⟩
      · rw [hheaders, hkept, hinit, List.map_nil, List.append_nil, List.map_append]
        rfl
      · rw [hinit]
        exact List.mem_append_left _ hg
      · rw [hwaiting]
        exact hkept
    · have hloud : (is_else l.line || is_elif l.line || is_except l.line) = true →
          (kept p.frames l).map frame_block = [] → ∀ b,
          ((ended p.frames l).map frame_block).getLast? = some b → is_silent b = false := by
        intro hflag hnil b hb
        rw [List.getLast?_map] at hb
        obtain ⟨f, hf, rfl⟩ := Option.map_eq_some_iff.mp hb
        rw [hf] at hclause
        have hzero : l.indent = 0 := by
          rw [hindent, List.map_eq_nil_iff.mp hnil]
          rfl
        have hnot : is_turn l.line = false :=
          (Bool.not_eq_true _).mp fun hturn => houter ⟨hturn, hzero⟩
        rw [is_turn] at hnot
        rw [hnot, Bool.false_or] at hflag
        exact (clause_silent hclause).2 hflag
      rw [hblocks] at h ⊢
      refine ⟨ended p.frames l, _, kept p.frames l, hheaders, Or.inl ⟨rfl, fun hturn hzero =>
        houter ⟨hturn, hzero⟩⟩, hsub, ?_, pop_blocks_takes (ended_blocks hp)
        (fun b hb => kept_head hindent hb) hloud h⟩
      rw [hwaiting]
      rfl

theorem open_pending_takes {p : Place} {l : SourceLine} {rest : List Frame} {st : State}
    (hblocks : st.blocks = rest.map frame_block)
    (hpending : st.pending = p.waiting.map fun h => (block_of h, ""))
    (hroom : (p.waiting.toList.map fun hd : SourceLine => Frame.mk hd l.indent).length +
      rest.length ≤ MAX_INDENTS) (h : st.reported = false) :
    Takes st (open_pending l.indent st)
      (((p.waiting.toList.map fun hd => Frame.mk hd l.indent) ++ rest).map frame_block) none
      some := by
  unfold open_pending
  cases hwaiting : p.waiting with
  | none =>
      rw [hwaiting] at hpending
      rw [hpending]
      exact ⟨h, rfl, hblocks, hpending, (Option.bind_fun_some _).symm⟩
  | some hd =>
      rw [hwaiting] at hpending hroom
      have hlt : st.blocks.length < MAX_INDENTS := by
        rw [hblocks, List.length_map]
        exact Nat.lt_of_lt_of_le (Nat.lt_add_of_pos_left Nat.zero_lt_one) hroom
      rw [hpending]
      refine ⟨h, rfl, ?_, rfl, (Option.bind_fun_some _).symm⟩
      show (if st.blocks.length < MAX_INDENTS then _ else _) = _
      rw [if_pos hlt, hblocks]
      rfl

theorem header_block_waits (l : SourceLine) :
    ((header_block l.line).map fun block => (block, "")) =
      (waits l).map fun h => (block_of h, "") := by
  unfold waits is_header
  cases hblock : header_block l.line with
  | none => rfl
  | some block =>
      show some (block, "") = some (block_of l, "")
      rw [block_of, hblock]
      rfl

/-- **One line.** The translator stays with the place, and of the blocks around the line it closes
those that end in front of it. -/
theorem transpile_line_takes {p p' : Place} {l : SourceLine} (hp : p.Valid)
    (hl : supported_line l.line = true) (hplace : place p l = some p')
    (hdepth : p'.headers.length ≤ MAX_INDENTS) {st : State} (htracks : Tracks p st)
    (h : (transpile_line st l).reported = false) :
    st.reported = false ∧ Tracks p' (transpile_line st l) ∧
      ∃ (closed : List Frame) (remaining : List SourceLine),
        p.headers = closed.map Frame.header ++ remaining ∧ Remains p' l remaining ∧
        (∀ f ∈ closed, f ∈ p.frames) ∧
        flow (transpile_line st l) = (flow st).bind fun s =>
          (Flow.close_all (closed.map frame_block) s).bind (line_flow l.indent l.line) := by
  obtain ⟨-, hwaits, -⟩ := place_valid hp hl hplace
  have hopened := transpile_form_reported hl h
  have hdedented : (handle_dedent l.indent
      (is_else l.line || is_elif l.line || is_except l.line) st).reported = false := by
    unfold open_pending at hopened
    split at hopened
    · exact hopened
    · exact hopened
  obtain ⟨closed, remaining, rest, hheaders, hremains, hclosed, hframes, hdedent⟩ :=
    handle_dedent_takes hp hplace htracks hdedented
  have hroom : (p.waiting.toList.map fun hd : SourceLine => Frame.mk hd l.indent).length +
      rest.length ≤ MAX_INDENTS := by
    rw [← List.length_append, ← hframes]
    refine Nat.le_trans ?_ hdepth
    rw [Place.headers, List.length_append, List.length_map]
    exact Nat.le_add_left _ _
  have hpending := hdedent.pending_eq.trans htracks.pending
  have hopen := open_pending_takes hdedent.blocks_eq hpending hroom hdedented
  have hclass : (open_pending l.indent (handle_dedent l.indent
      (is_else l.line || is_elif l.line || is_except l.line) st)).active_class = "" :=
    hopen.active_class.trans (hdedent.active_class.trans htracks.active_class)
  have hform := transpile_form_takes hl hclass hopen.pending_eq h
  refine ⟨hdedent.reported, ⟨hform.active_class.trans hclass, ?_, ?_⟩, closed, remaining,
    hheaders, hremains, hclosed, ?_⟩
  · exact hform.blocks_eq.trans (hopen.blocks_eq.trans (by rw [hframes]))
  · exact hform.pending_eq.trans (by rw [header_block_waits, hwaits])
  · exact hform.flow_eq.trans (by
      rw [hopen.flow_eq, Option.bind_fun_some, hdedent.flow_eq, Option.bind_assoc])

end SysInC.PythontLegacy
