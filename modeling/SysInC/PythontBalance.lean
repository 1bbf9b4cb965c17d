/-
When the line translator's braces are balanced.

`Good` is the state of the two texts while no function stands inside of a function and every
`else` and `elif` is on the outermost level: what is inside of a function is open in the functions'
text, and the rest in that of `main`. An `else` inside of a block closes the `if` twice, so that a
block is missing behind it; a function inside of a function sends the rest of the outer one to
`main`, so that its brace stays open.
-/
import SysInC.PythontLayout
import Mathlib.Data.List.Induction
import Mathlib.Data.List.Infix

set_option autoImplicit false

namespace SysInC.PythontLegacy

/-! ## The condition's sufficiency -/

/-- The headers from the innermost one out to the function are open in the text of the functions,
those around it in `main`. -/
structure Good (headers : List SourceLine) (s : Flow) : Prop where
  split : ∃ inner outer, headers = inner ++ outer ∧ s.func = inner.map SourceLine.indent ∧
    s.main = outer.map SourceLine.indent ∧ (∀ h ∈ outer, is_def h = false) ∧
    ((inner = [] ∧ s.inside = false) ∨ ∃ front d, inner = front ++ [d] ∧ s.inside = true ∧
      is_def d = true ∧ ∀ h ∈ front, is_def h = false)

theorem Good.start : Good [] ⟨false, [], []⟩ :=
  ⟨[], [], rfl, rfl, rfl, fun _ h => absurd h List.not_mem_nil, Or.inl ⟨rfl, rfl⟩⟩

/-- All blocks that are open are the headers, the innermost first. -/
theorem Good.open_all {headers : List SourceLine} {s : Flow} (h : Good headers s) :
    s.func ++ s.main = headers.map SourceLine.indent := by
  obtain ⟨inner, outer, rfl, hfunc, hmain, -⟩ := h.split
  rw [hfunc, hmain, List.map_append]

theorem Flow.on_func {s : Flow} (h : s.inside = true) {text : List ℕ → Option (List ℕ)}
    {f : List ℕ} (htext : text s.func = some f) : s.on text = some { s with func := f } := by
  rw [Flow.on, if_pos h, htext]
  rfl

theorem Flow.on_main {s : Flow} (h : s.inside = false) {text : List ℕ → Option (List ℕ)}
    {m : List ℕ} (htext : text s.main = some m) : s.on text = some { s with main := m } := by
  rw [Flow.on, if_neg (by rw [h]; exact Bool.false_ne_true), htext]
  rfl

theorem Good.close {hd : SourceLine} {headers : List SourceLine} {s : Flow}
    (h : Good (hd :: headers) s) : ∃ s', s.close (is_def hd) = some s' ∧ Good headers s' := by
  obtain ⟨inner, outer, hsplit, hfunc, hmain, houter, ⟨rfl, hinside⟩ | ⟨front, d, rfl, hinside,
    hd', hfront⟩⟩ := h.split
  · rw [List.nil_append] at hsplit
    subst hsplit
    rw [List.forall_mem_cons] at houter
    have hon : s.on List.tail? = some { s with main := headers.map SourceLine.indent } :=
      Flow.on_main hinside (by rw [hmain]; rfl)
    rw [Flow.close, hon]
    refine ⟨_, rfl, [], headers, rfl, hfunc, rfl, houter.2, Or.inl ⟨rfl, ?_⟩⟩
    show (s.inside && !is_def hd) = false
    rw [hinside, Bool.false_and]
  · cases front with
    | nil =>
        obtain ⟨rfl, rfl⟩ := List.cons.inj hsplit
        have hon : s.on List.tail? = some { s with func := [] } :=
          Flow.on_func hinside (by rw [hfunc]; rfl)
        rw [Flow.close, hon]
        refine ⟨_, rfl, [], _, rfl, rfl, hmain, houter, Or.inl ⟨rfl, ?_⟩⟩
        show (s.inside && !is_def hd) = false
        rw [hd', Bool.not_true, Bool.and_false]
    | cons g front =>
        obtain ⟨rfl, rfl⟩ := List.cons.inj hsplit
        rw [List.forall_mem_cons] at hfront
        have hon : s.on List.tail? =
            some { s with func := (front ++ [d]).map SourceLine.indent } :=
          Flow.on_func hinside (by rw [hfunc]; rfl)
        rw [Flow.close, hon]
        refine ⟨_, rfl, front ++ [d], outer, rfl, rfl, hmain, houter,
          Or.inr ⟨front, d, rfl, ?_, hd', hfront.2⟩⟩
        show (s.inside && !is_def hd) = true
        rw [hinside, hfront.1]
        rfl

/-- Closing block by block. -/
theorem Good.close_all {closed : List Frame} (hclosed : ∀ f ∈ closed, is_header f.header = true)
    {remaining : List SourceLine} {s : Flow}
    (h : Good (closed.map Frame.header ++ remaining) s) :
    ∃ s', Flow.close_all (closed.map frame_block) s = some s' ∧ Good remaining s' := by
  induction closed generalizing s with
  | nil => exact ⟨s, rfl, h⟩
  | cons f closed ih =>
      rw [List.forall_mem_cons] at hclosed
      obtain ⟨s', hclose, hgood⟩ := h.close
      obtain ⟨s'', hall, hgood'⟩ := ih hclosed.2 hgood
      refine ⟨s'', ?_, hgood'⟩
      rw [List.map_cons, Flow.close_all_cons, is_func_frame hclosed.1, hclose]
      exact hall

/-- A block that is no function. -/
theorem Good.opens {headers : List SourceLine} {s : Flow} (h : Good headers s) {l : SourceLine}
    (hl : is_def l = false) :
    ∃ s', (s.on fun open_ => some (l.indent :: open_)) = some s' ∧ Good (l :: headers) s' := by
  obtain ⟨inner, outer, rfl, hfunc, hmain, houter, ⟨rfl, hinside⟩ | ⟨front, d, rfl, hinside,
    hd, hfront⟩⟩ := h.split
  · refine ⟨_, Flow.on_main hinside rfl, [], l :: outer, rfl, hfunc, ?_, ?_, Or.inl ⟨rfl, hinside⟩⟩
    · rw [List.map_cons, ← hmain]
    · exact List.forall_mem_cons.mpr ⟨hl, houter⟩
  · refine ⟨_, Flow.on_func hinside rfl, l :: (front ++ [d]), outer, rfl, ?_, hmain, houter,
      Or.inr ⟨l :: front, d, rfl, hinside, hd, List.forall_mem_cons.mpr ⟨hl, hfront⟩⟩⟩
    rw [List.map_cons, ← hfunc]

/-- A function that is inside of none. -/
theorem Good.defines {headers : List SourceLine} {s : Flow} (h : Good headers s)
    (hheaders : ∀ hd ∈ headers, is_def hd = false) {l : SourceLine} (hl : is_def l = true) :
    ∃ s', ({ s with inside := true }.on fun open_ => some (l.indent :: open_)) = some s' ∧
      Good (l :: headers) s' := by
  obtain ⟨inner, outer, rfl, hfunc, hmain, houter, ⟨rfl, hinside⟩ | ⟨front, d, rfl, hinside,
    hd, hfront⟩⟩ := h.split
  · refine ⟨_, Flow.on_func rfl rfl, [l], outer, rfl, ?_, hmain, houter,
      Or.inr ⟨[], l, rfl, rfl, hl, fun _ hd => absurd hd List.not_mem_nil⟩⟩
    show l.indent :: s.func = _
    rw [hfunc]
    rfl
  · have hmem : d ∈ front ++ [d] ++ outer :=
      List.mem_append_left _ (List.mem_append_right _ List.mem_cons_self)
    rw [hheaders d hmem] at hd
    exact absurd hd Bool.false_ne_true

/-- A clause on the outermost level takes the place of the block that it goes on from. -/
theorem Good.turns {hd : SourceLine} {s : Flow} (h : Good [hd] s) (hdef : is_def hd = false)
    {l : SourceLine} (hl : is_def l = false) :
    ∃ s', (s.on fun open_ => open_.tail?.map (l.indent :: ·)) = some s' ∧ Good [l] s' := by
  obtain ⟨s', hclose, hgood⟩ := h.close
  obtain ⟨s'', hopen, hgood'⟩ := hgood.opens hl
  refine ⟨s'', ?_, hgood'⟩
  have hkeep : (fun t : Flow => { t with inside := t.inside && !is_def hd }) = id := by
    funext t
    rw [hdef]
    simp only [Bool.not_false, Bool.and_true, id_eq]
  rw [Flow.close, hkeep, Option.map_id] at hclose
  have hon := s.on_on List.tail? fun open_ => some (l.indent :: open_)
  rw [id_eq] at hclose
  rw [hclose, Option.bind_some, hopen] at hon
  have hmap : (fun open_ : List ℕ => open_.tail?.map (l.indent :: ·)) =
      fun open_ => open_.tail?.bind fun open_ => some (l.indent :: open_) :=
    funext fun _ => Option.map_eq_bind
  rw [hmap]
  exact hon.symm

/-! ## Lines -/

/-- The four things that a line may do to the open blocks. -/
theorem line_flow_cases (l : SourceLine) :
    (waits l = none ∧ is_turn l.line = false ∧ is_def l = false ∧
      line_flow l.indent l.line = some) ∨
    (waits l = some l ∧ is_turn l.line = false ∧ is_def l = true ∧
      line_flow l.indent l.line =
        fun s => { s with inside := true }.on fun open_ => some (l.indent :: open_)) ∨
    (waits l = some l ∧ is_turn l.line = true ∧ is_def l = false ∧
      line_flow l.indent l.line = fun s => s.on fun open_ => open_.tail?.map (l.indent :: ·)) ∨
    (waits l = some l ∧ is_turn l.line = false ∧ is_def l = false ∧
      line_flow l.indent l.line = fun s => s.on fun open_ => some (l.indent :: open_)) := by
  obtain ⟨indent, line⟩ := l
  cases line with
  | simple s => exact Or.inl ⟨rfl, rfl, rfl, rfl⟩
  | def_ _ _ => exact Or.inr (Or.inl ⟨rfl, rfl, rfl, rfl⟩)
  | elif_ _ => exact Or.inr (Or.inr (Or.inl ⟨rfl, rfl, rfl, rfl⟩))
  | else_ => exact Or.inr (Or.inr (Or.inl ⟨rfl, rfl, rfl, rfl⟩))
  | _ => exact Or.inr (Or.inr (Or.inr ⟨rfl, rfl, rfl, rfl⟩))

/-- The text of a line. -/
theorem Good.line {p' : Place} {l : SourceLine} (hwaits : p'.waiting = waits l)
    {remaining : List SourceLine} (hremains : Remains p' l remaining) {s : Flow}
    (h : Good remaining s) (hturn : is_turn l.line = true → l.indent = 0)
    (hdef : is_def l = true → ∀ f ∈ p'.frames, is_def f.header = false) :
    ∃ s', line_flow l.indent l.line s = some s' ∧ Good p'.headers s' := by
  have hheaders : p'.headers = (waits l).toList ++ p'.frames.map Frame.header := by
    rw [Place.headers, hwaits]
  have hplain : is_turn l.line = false → remaining = p'.frames.map Frame.header := by
    intro hnot
    obtain ⟨hrem, -⟩ | ⟨hyes, -⟩ := hremains
    · exact hrem
    · exact absurd (hyes.symm.trans hnot) Bool.true_eq_false.mp
  rw [hheaders]
  obtain ⟨hw, hnot, -, hflow⟩ | ⟨hw, hnot, hisdef, hflow⟩ | ⟨hw, hyes, hnodef, hflow⟩ |
    ⟨hw, hnot, hnodef, hflow⟩ := line_flow_cases l
  · rw [hw, hflow]
    rw [hplain hnot] at h
    exact ⟨s, rfl, h⟩
  · rw [hw, hflow]
    rw [hplain hnot] at h
    refine h.defines (fun hd hmem => ?_) hisdef
    obtain ⟨f, hf, rfl⟩ := List.mem_map.mp hmem
    exact hdef hisdef f hf
  · rw [hw, hflow]
    obtain ⟨-, hinner⟩ | ⟨-, -, hframes, hd, rfl, hdef'⟩ := hremains
    · exact absurd (hturn hyes) (hinner hyes)
    · rw [hframes]
      exact h.turns hdef' hnodef
  · rw [hw, hflow]
    rw [hplain hnot] at h
    exact h.opens hnodef

/-! ## The condition's necessity -/

/-- How many blocks are open. -/
def Flow.size (s : Flow) : ℕ := s.func.length + s.main.length

theorem Flow.on_cases {s s' : Flow} {text : List ℕ → Option (List ℕ)} (h : s.on text = some s') :
    (s.inside = true ∧ ∃ f, text s.func = some f ∧ s' = { s with func := f }) ∨
      (s.inside = false ∧ ∃ m, text s.main = some m ∧ s' = { s with main := m }) := by
  unfold Flow.on at h
  split at h
  · next hinside =>
      obtain ⟨f, hf, rfl⟩ := Option.map_eq_some_iff.mp h
      exact Or.inl ⟨hinside, f, hf, rfl⟩
  · next hinside =>
      obtain ⟨m, hm, rfl⟩ := Option.map_eq_some_iff.mp h
      exact Or.inr ⟨(Bool.not_eq_true _).mp hinside, m, hm, rfl⟩

theorem length_of_tail? {open_ rest : List ℕ} (h : open_.tail? = some rest) :
    rest.length + 1 = open_.length := by
  cases open_ with
  | nil => exact nomatch h
  | cons top open_ => rw [← Option.some.inj h, List.length_cons]

theorem length_of_turn {open_ rest : List ℕ} {indent : ℕ}
    (h : open_.tail?.map (indent :: ·) = some rest) : rest.length = open_.length := by
  obtain ⟨tail, htail, rfl⟩ := Option.map_eq_some_iff.mp h
  exact length_of_tail? htail

/-- Which brace is written. -/
theorem Flow.close_cases {s s' : Flow} {func : Bool} (h : s.close func = some s') :
    (s.inside = true ∧ s'.inside = !func ∧ s'.func.length + 1 = s.func.length ∧
      s'.main = s.main) ∨
    (s.inside = false ∧ s'.inside = false ∧ s'.func = s.func ∧
      s'.main.length + 1 = s.main.length) := by
  obtain ⟨t, ht, rfl⟩ := Option.map_eq_some_iff.mp h
  obtain ⟨hinside, f, hf, rfl⟩ | ⟨hinside, m, hm, rfl⟩ := Flow.on_cases ht
  · exact Or.inl ⟨hinside, by simp only [hinside, Bool.true_and], length_of_tail? hf, rfl⟩
  · exact Or.inr ⟨hinside, by simp only [hinside, Bool.false_and], rfl, length_of_tail? hm⟩

theorem Flow.close_all_size {blocks : List Block} {s s' : Flow}
    (h : Flow.close_all blocks s = some s') : s'.size + blocks.length = s.size := by
  induction blocks generalizing s with
  | nil => rw [← Option.some.inj h, List.length_nil, Nat.add_zero]
  | cons b blocks ih =>
      rw [Flow.close_all_cons] at h
      obtain ⟨t, ht, hrest⟩ := Option.bind_eq_some_iff.mp h
      have hsize := ih hrest
      rw [List.length_cons]
      unfold Flow.size at *
      obtain ⟨-, -, hfunc, hmain⟩ | ⟨-, -, hfunc, hmain⟩ := Flow.close_cases ht
      · rw [hmain] at hsize
        omega
      · rw [hfunc] at hsize
        omega

/-- **An `else` inside of a block loses one**: with it the `if` is closed twice. -/
theorem turn_outermost {p p' : Place} {l : SourceLine} (hwaits : p'.waiting = waits l)
    {closed : List Frame} {remaining : List SourceLine}
    (hheaders : p.headers = closed.map Frame.header ++ remaining)
    (hremains : Remains p' l remaining) {s t s' : Flow} (hs : s.size = p.headers.length)
    (hclose : Flow.close_all (closed.map frame_block) s = some t)
    (hline : line_flow l.indent l.line t = some s') (hs' : s'.size = p'.headers.length)
    (hturn : is_turn l.line = true) : l.indent = 0 := by
  obtain ⟨hrem, -⟩ | ⟨-, hzero, -⟩ := hremains
  · exfalso
    have hsize := Flow.close_all_size hclose
    obtain ⟨hw, -, -, hflow⟩ : waits l = some l ∧ is_turn l.line = true ∧ is_def l = false ∧
        line_flow l.indent l.line = fun s => s.on fun open_ => open_.tail?.map (l.indent :: ·) := by
      obtain ⟨-, hnot, -⟩ | ⟨-, hnot, -⟩ | hcase | ⟨-, hnot, -⟩ := line_flow_cases l
      · exact absurd (hturn.symm.trans hnot) Bool.true_eq_false.mp
      · exact absurd (hturn.symm.trans hnot) Bool.true_eq_false.mp
      · exact hcase
      · exact absurd (hturn.symm.trans hnot) Bool.true_eq_false.mp
    have hsame : s'.size = t.size := by
      rw [hflow] at hline
      unfold Flow.size
      obtain ⟨-, f, hf, rfl⟩ | ⟨-, m, hm, rfl⟩ := Flow.on_cases hline
      · rw [length_of_turn hf]
      · rw [length_of_turn hm]
    have hlength : p'.headers.length = 1 + p'.frames.length := by
      rw [Place.headers, hwaits, hw, List.length_append, List.length_map]
      rfl
    rw [hheaders, hrem, List.length_append, List.length_map, List.length_map] at hs
    rw [List.length_map] at hsize
    omega
  · exact hzero

/-! ### Functions inside of functions -/

/-- The blocks that at least are open in the text of the functions: the functions, and what has
been opened inside of the innermost one. -/
def owed (inside : Bool) (headers : List SourceLine) : ℕ :=
  (headers.filter is_def).length +
    if inside = true then (headers.takeWhile fun h => !is_def h).length else 0

def Owes (headers : List SourceLine) (s : Flow) : Prop := owed s.inside headers ≤ s.func.length

/-- A brace of the functions' text will not be closed there. -/
def Doomed (headers : List SourceLine) (s : Flow) : Prop :=
  owed s.inside headers < s.func.length ∨
    (s.inside = true ∧ 2 ≤ (headers.filter is_def).length) ∨
    (s.inside = false ∧ 1 ≤ (headers.filter is_def).length)

theorem owed_cons_def {inside : Bool} {h : SourceLine} (hdef : is_def h = true)
    (headers : List SourceLine) :
    owed inside (h :: headers) = (headers.filter is_def).length + 1 := by
  rw [owed, List.filter_cons_of_pos hdef, List.length_cons, List.takeWhile_cons_of_neg]
  · split
    · rfl
    · rfl
  · rw [hdef]
    exact Bool.false_ne_true

theorem owed_cons {inside : Bool} {h : SourceLine} (hdef : is_def h = false)
    (headers : List SourceLine) :
    owed inside (h :: headers) = owed inside headers + if inside = true then 1 else 0 := by
  have hneg : ¬is_def h = true := by
    rw [hdef]
    exact Bool.false_ne_true
  rw [owed, owed, List.filter_cons_of_neg hneg, List.takeWhile_cons_of_pos (by rw [hdef]; rfl)]
  split
  · rw [List.length_cons, Nat.add_assoc]
  · rfl

theorem filter_le_owed (inside : Bool) (headers : List SourceLine) :
    (headers.filter is_def).length ≤ owed inside headers := Nat.le_add_right _ _

theorem owed_false (headers : List SourceLine) :
    owed false headers = (headers.filter is_def).length := rfl

theorem Owes.close {hd : SourceLine} {headers : List SourceLine} {s s' : Flow}
    (h : Owes (hd :: headers) s) (hclose : s.close (is_def hd) = some s') :
    Owes headers s' ∧ (Doomed (hd :: headers) s → Doomed headers s') := by
  unfold Owes Doomed at *
  by_cases hdef : is_def hd = true
  · rw [owed_cons_def hdef] at h ⊢
    rw [List.filter_cons_of_pos hdef, List.length_cons]
    obtain ⟨hinside, hinside', hfunc, -⟩ | ⟨hinside, hinside', hfunc, -⟩ :=
      Flow.close_cases hclose
    · rw [hdef, Bool.not_true] at hinside'
      rw [hinside', owed_false, hinside]
      refine ⟨by omega, fun hdoomed => ?_⟩
      obtain hlt | ⟨-, htwo⟩ | ⟨hfalse, -⟩ := hdoomed
      · exact Or.inl (by omega)
      · exact Or.inr (Or.inr ⟨rfl, by omega⟩)
      · exact nomatch hfalse
    · -- the brace of `main` is closed in the function's place
      rw [hinside', owed_false, hfunc]
      exact ⟨by omega, fun _ => Or.inl (by omega)⟩
  · have hnot : is_def hd = false := (Bool.not_eq_true _).mp hdef
    rw [owed_cons hnot] at h ⊢
    rw [List.filter_cons_of_neg hdef]
    obtain ⟨hinside, hinside', hfunc, -⟩ | ⟨hinside, hinside', hfunc, -⟩ :=
      Flow.close_cases hclose
    · rw [hnot, Bool.not_false] at hinside'
      rw [hinside, if_pos rfl] at h ⊢
      rw [hinside']
      refine ⟨by omega, fun hdoomed => ?_⟩
      obtain hlt | hrest := hdoomed
      · exact Or.inl (by omega)
      · exact Or.inr hrest
    · rw [hinside, if_neg Bool.false_ne_true] at h ⊢
      rw [hinside', hfunc]
      exact ⟨h, id⟩

theorem Owes.close_all {closed : List Frame}
    (hclosed : ∀ f ∈ closed, is_header f.header = true) {remaining : List SourceLine}
    {s s' : Flow} (h : Owes (closed.map Frame.header ++ remaining) s)
    (hclose : Flow.close_all (closed.map frame_block) s = some s') :
    Owes remaining s' ∧
      (Doomed (closed.map Frame.header ++ remaining) s → Doomed remaining s') := by
  induction closed generalizing s with
  | nil =>
      obtain rfl := Option.some.inj hclose
      exact ⟨h, id⟩
  | cons f closed ih =>
      rw [List.forall_mem_cons] at hclosed
      rw [List.map_cons, Flow.close_all_cons, is_func_frame hclosed.1] at hclose
      obtain ⟨t, ht, hrest⟩ := Option.bind_eq_some_iff.mp hclose
      obtain ⟨howes, hdoomed⟩ := h.close ht
      obtain ⟨howes', hdoomed'⟩ := ih hclosed.2 howes hrest
      exact ⟨howes', fun hd => hdoomed' (hdoomed hd)⟩

/-- A line keeps the debt, and a function inside of a function makes one. -/
theorem Owes.line {p' : Place} {l : SourceLine} (hwaits : p'.waiting = waits l)
    {remaining : List SourceLine} (hremains : Remains p' l remaining) {s s' : Flow}
    (h : Owes remaining s) (hline : line_flow l.indent l.line s = some s')
    (hturn : is_turn l.line = true → l.indent = 0) :
    Owes p'.headers s' ∧ (Doomed remaining s → Doomed p'.headers s') ∧
      ((remaining.filter is_def).length ≤ 1 → (p'.headers.filter is_def).length ≤ 1 ∨
        Doomed p'.headers s') := by
  have hheaders : p'.headers = (waits l).toList ++ p'.frames.map Frame.header := by
    rw [Place.headers, hwaits]
  have hplain : is_turn l.line = false → p'.frames.map Frame.header = remaining := by
    intro hnot
    obtain ⟨hrem, -⟩ | ⟨hyes, -⟩ := hremains
    · exact hrem.symm
    · exact absurd (hyes.symm.trans hnot) Bool.true_eq_false.mp
  obtain ⟨hw, hnot, -, hflow⟩ | ⟨hw, hnot, hisdef, hflow⟩ | ⟨hw, hyes, hnodef, hflow⟩ |
    ⟨hw, hnot, hnodef, hflow⟩ := line_flow_cases l
  · rw [hflow] at hline
    rw [hheaders, hw, hplain hnot, ← Option.some.inj hline]
    exact ⟨h, id, Or.inl⟩
  · rw [hflow] at hline
    rw [hheaders, hw, hplain hnot, Option.toList_some, List.singleton_append]
    obtain ⟨-, f, hf, rfl⟩ | ⟨hfalse, -⟩ := Flow.on_cases hline
    · have hle := filter_le_owed s.inside remaining
      obtain rfl := Option.some.inj hf
      unfold Owes Doomed at *
      simp only [owed_cons_def hisdef, List.filter_cons_of_pos hisdef, List.length_cons, true_and]
      refine ⟨by omega, fun hdoomed => ?_, fun hone => ?_⟩
      · obtain hlt | ⟨-, htwo⟩ | ⟨-, hone⟩ := hdoomed
        · exact Or.inl (by omega)
        · exact Or.inr (Or.inl (by omega))
        · exact Or.inr (Or.inl (by omega))
      · by_cases hzero : (remaining.filter is_def).length = 0
        · exact Or.inl (Nat.le_of_eq (by rw [hzero]))
        · exact Or.inr (Or.inr (Or.inl (by omega)))
    · exact absurd hfalse Bool.true_eq_false.mp
  · rw [hflow] at hline
    obtain ⟨-, hinner⟩ | ⟨-, -, hframes, hd, rfl, hdef'⟩ := hremains
    · exact absurd (hturn hyes) (hinner hyes)
    · rw [hheaders, hw, hframes, Option.toList_some, List.map_nil, List.append_nil]
      have hl : ¬is_def l = true := by
        rw [hnodef]
        exact Bool.false_ne_true
      have hhd : ¬is_def hd = true := by
        rw [hdef']
        exact Bool.false_ne_true
      have hfunc : s'.func.length = s.func.length ∧ s'.inside = s.inside := by
        obtain ⟨-, f, hf, rfl⟩ | ⟨-, m, hm, rfl⟩ := Flow.on_cases hline
        · exact ⟨length_of_turn hf, rfl⟩
        · exact ⟨rfl, rfl⟩
      unfold Owes Doomed at *
      simp only [owed_cons hnodef, owed_cons hdef', List.filter_cons_of_neg hl,
        List.filter_cons_of_neg hhd, hfunc.1, hfunc.2] at *
      refine ⟨h, id, fun _ => Or.inl (Nat.zero_le 1)⟩
  · rw [hflow] at hline
    rw [hheaders, hw, hplain hnot, Option.toList_some, List.singleton_append]
    have hl : ¬is_def l = true := by
      rw [hnodef]
      exact Bool.false_ne_true
    unfold Owes Doomed at *
    rw [owed_cons hnodef, List.filter_cons_of_neg hl]
    obtain ⟨hinside, f, hf, rfl⟩ | ⟨hinside, m, -, rfl⟩ := Flow.on_cases hline
    · obtain rfl := Option.some.inj hf
      rw [List.length_cons, if_pos hinside]
      refine ⟨Nat.succ_le_succ h, fun hdoomed => ?_, Or.inl⟩
      obtain hlt | hrest := hdoomed
      · exact Or.inl (Nat.succ_lt_succ hlt)
      · exact Or.inr hrest
    · rw [hinside, if_neg Bool.false_ne_true, Nat.add_zero]
      rw [hinside] at h
      exact ⟨h, id, Or.inl⟩

theorem not_doomed_of_closed {s : Flow} (h : s.func = []) : ¬Doomed [] s := by
  intro hdoomed
  unfold Doomed at hdoomed
  rw [h] at hdoomed
  obtain hlt | ⟨-, hle⟩ | ⟨-, hle⟩ := hdoomed
  · exact Nat.not_lt_zero _ hlt
  · exact Nat.not_succ_le_zero 1 hle
  · exact Nat.not_succ_le_zero 0 hle

/-! ## Runs -/

/-- What a line does between two places. -/
structure Step (st st' : State) (p p' : Place) (l : SourceLine) : Prop where
  headers : p'.headers = enter p.headers l
  waits_eq : p'.waiting = waits l
  flow_eq : ∃ (closed : List Frame) (remaining : List SourceLine),
    p.headers = closed.map Frame.header ++ remaining ∧ Remains p' l remaining ∧
    (∀ f ∈ closed, is_header f.header = true) ∧
    flow st' = (flow st).bind fun s =>
      (Flow.close_all (closed.map frame_block) s).bind (line_flow l.indent l.line)

/-- The places of a program, line by line. -/
inductive Reads : List SourceLine → Place → Prop where
  | start : Reads [] Place.start
  | line {done : List SourceLine} {p p' : Place} {l : SourceLine} (hdone : Reads done p)
      (hstep : Step (transpile_lines done) (transpile_lines (done ++ [l])) p p' l) :
      Reads (done ++ [l]) p'

theorem transpile_lines_append (done : List SourceLine) (l : SourceLine) :
    transpile_lines (done ++ [l]) = transpile_line (transpile_lines done) l := by
  rw [transpile_lines, List.foldl_append]
  rfl

theorem enclosing_append (done : List SourceLine) (l : SourceLine) :
    enclosing (done ++ [l]) = enter (enclosing done) l := by
  rw [enclosing, List.foldl_append]
  rfl

theorem Reads.enclosing_eq {done : List SourceLine} {p : Place} (h : Reads done p) :
    enclosing done = p.headers := by
  induction h with
  | start => rfl
  | line _ hstep ih => rw [enclosing_append, ih, hstep.headers]

theorem Reads.before {lines done : List SourceLine} {p : Place} (h : Reads lines p)
    (hdone : done <+: lines) : ∃ q, Reads done q := by
  induction h with
  | start =>
      rw [List.prefix_nil.mp hdone]
      exact ⟨_, Reads.start⟩
  | @line read p p' l hread hstep ih =>
      rcases List.prefix_concat_iff.mp hdone with rfl | hdone
      · exact ⟨_, hread.line hstep⟩
      · exact ih hdone

/-- **A well-indented program is read to its end**, as far as the stack and the buffers go. -/
theorem reads_of_layout {lines : List SourceLine}
    (hsupported : ∀ l ∈ lines, supported_line l.line = true) {p : Place}
    (hlayout : lines.foldlM place Place.start = some p)
    (hdepth : ∀ done, done <+: lines → (enclosing done).length ≤ MAX_INDENTS)
    (hreported : (transpile_lines lines).reported = false) :
    Reads lines p ∧ p.Valid ∧ Tracks p (transpile_lines lines) := by
  induction lines using List.reverseRecOn generalizing p with
  | nil =>
      obtain rfl := Option.some.inj hlayout
      exact ⟨Reads.start, ⟨trivial, fun _ h => nomatch h⟩, rfl, rfl, rfl⟩
  | append_singleton done l ih =>
      rw [List.foldlM_append] at hlayout
      obtain ⟨q, hq, hplace⟩ := Option.bind_eq_some_iff.mp hlayout
      have hp : place q l = some p := by
        rw [List.foldlM_cons] at hplace
        obtain ⟨p', hp', hnil⟩ := Option.bind_eq_some_iff.mp hplace
        rw [hp']
        exact hnil
      rw [List.forall_mem_append] at hsupported
      have hl := hsupported.2 l List.mem_cons_self
      rw [transpile_lines_append] at hreported
      have hbefore : (transpile_lines done).reported = false := by
        have hopened := transpile_form_reported hl hreported
        unfold open_pending at hopened
        split at hopened
        · exact pop_blocks_reported hopened
        · exact pop_blocks_reported hopened
      obtain ⟨hreads, hvalid, htracks⟩ := ih hsupported.1 hq
        (fun d hd => hdepth d (hd.trans (List.prefix_append _ _))) hbefore
      obtain ⟨hvalid', hwaits, -⟩ := place_valid hvalid hl hp
      have hheaders := place_headers hvalid hp
      have hroom : p.headers.length ≤ MAX_INDENTS := by
        have h := hdepth (done ++ [l]) (List.prefix_refl _)
        rwa [enclosing_append, hreads.enclosing_eq, ← hheaders] at h
      obtain ⟨-, htracks', closed, remaining, hsplit, hremains, hclosed, hflow⟩ :=
        transpile_line_takes hvalid hl hp hroom htracks hreported
      have hclosed' : ∀ f ∈ closed, is_header f.header = true := fun f hf =>
        (hvalid.nested.mem (hclosed f hf)).1
      rw [← transpile_lines_append] at htracks' hflow
      exact ⟨hreads.line ⟨hheaders, hwaits, closed, remaining, hsplit, hremains, hclosed', hflow⟩,
        hvalid', htracks'⟩

/-- No clause is inside of a block. -/
def ClausesOutermost (lines : List SourceLine) : Prop :=
  ∀ l ∈ lines, is_turn l.line = true → l.indent = 0

instance (lines : List SourceLine) : Decidable (ClausesOutermost lines) :=
  inferInstanceAs (Decidable (∀ l ∈ lines, is_turn l.line = true → l.indent = 0))

/-- No line is inside of two functions. -/
def NoNestedDef (lines : List SourceLine) : Prop :=
  ∀ done, done <+: lines → ((enclosing done).filter is_def).length ≤ 1

theorem Reads.good {lines : List SourceLine} {p : Place} (h : Reads lines p)
    (hclauses : ClausesOutermost lines) (hnested : NoNestedDef lines) :
    ∃ s, flow (transpile_lines lines) = some s ∧ Good p.headers s := by
  induction h with
  | start => exact ⟨_, rfl, Good.start⟩
  | @line done p p' l hdone hstep ih =>
      obtain ⟨s, hs, hgood⟩ := ih (fun x hx => hclauses x (List.mem_append_left _ hx))
        fun d hd => hnested d (hd.trans (List.prefix_append _ _))
      obtain ⟨closed, remaining, hsplit, hremains, hclosed, hflow⟩ := hstep.flow_eq
      rw [hsplit] at hgood
      obtain ⟨t, ht, hgood⟩ := hgood.close_all hclosed
      have hdef : is_def l = true → ∀ f ∈ p'.frames, is_def f.header = false := by
        intro hl f hf
        by_contra hnot
        have hone := hnested (done ++ [l]) (List.prefix_refl _)
        have hw : waits l = some l := by
          obtain ⟨-, -, hno, -⟩ | ⟨hw, -⟩ | ⟨hw, -⟩ | ⟨hw, -⟩ := line_flow_cases l
          · exact absurd (hl.symm.trans hno) Bool.true_eq_false.mp
          · exact hw
          · exact hw
          · exact hw
        rw [enclosing_append, hdone.enclosing_eq, ← hstep.headers, Place.headers, hstep.waits_eq,
          hw, Option.toList_some, List.singleton_append, List.filter_cons_of_pos hl,
          List.length_cons] at hone
        have hmem : f.header ∈ (p'.frames.map Frame.header).filter is_def :=
          List.mem_filter.mpr ⟨List.mem_map_of_mem hf, (Bool.not_eq_false _).mp hnot⟩
        have hpos := List.length_pos_of_mem hmem
        omega
      obtain ⟨s', hs', hgood'⟩ := hgood.line hstep.waits_eq hremains
        (hclauses l (List.mem_append_right _ List.mem_cons_self)) hdef
      refine ⟨s', ?_, hgood'⟩
      rw [hflow, hs, Option.bind_some, ht, Option.bind_some, hs']

/-- What the two texts leave open. -/
def OpenBlocks (st : State) (indents : List ℕ) : Prop :=
  ∃ f m, open_blocks st.func_buffer = some f ∧ open_blocks st.main_buffer = some m ∧
    f ++ m = indents

theorem openBlocks_iff {st : State} {indents : List ℕ} :
    OpenBlocks st indents ↔ ∃ s, flow st = some s ∧ s.func ++ s.main = indents := by
  constructor
  · rintro ⟨f, m, hf, hm, heq⟩
    refine ⟨⟨st.inside_function, f, m⟩, ?_, heq⟩
    rw [flow, hf, hm]
    rfl
  · rintro ⟨s, hs, heq⟩
    obtain ⟨f, hf, hrest⟩ := Option.bind_eq_some_iff.mp hs
    obtain ⟨m, hm, rfl⟩ := Option.map_eq_some_iff.mp hrest
    exact ⟨f, m, hf, hm, heq⟩

/-- Behind every line exactly the headers are open that it is inside of, and at the end none. -/
structure Balanced (lines : List SourceLine) : Prop where
  lines_open : ∀ done, done <+: lines →
    OpenBlocks (transpile_lines done) ((enclosing done).map SourceLine.indent)
  all_closed : OpenBlocks (translate lines) []

theorem Reads.doomed {lines : List SourceLine} {p : Place} (h : Reads lines p)
    (hopen : ∀ done, done <+: lines →
      OpenBlocks (transpile_lines done) ((enclosing done).map SourceLine.indent)) :
    ClausesOutermost lines ∧ ∃ s, flow (transpile_lines lines) = some s ∧ Owes p.headers s ∧
      (NoNestedDef lines ∨ Doomed p.headers s) := by
  induction h with
  | start =>
      refine ⟨fun _ hl => absurd hl List.not_mem_nil, _, rfl, Nat.le_refl 0, Or.inl ?_⟩
      intro d hd
      rw [List.prefix_nil.mp hd]
      exact Nat.zero_le 1
  | @line done p p' l hdone hstep ih =>
      obtain ⟨hclauses, s, hs, howes, hdoomed⟩ := ih fun d hd =>
        hopen d (hd.trans (List.prefix_append _ _))
      obtain ⟨closed, remaining, hsplit, hremains, hclosed, hflow⟩ := hstep.flow_eq
      have henclosing : enclosing (done ++ [l]) = p'.headers := (hdone.line hstep).enclosing_eq
      have hsize {d : List SourceLine} (hd : d <+: done ++ [l]) {t : Flow}
          (ht : flow (transpile_lines d) = some t) : t.size = (enclosing d).length := by
        obtain ⟨t', ht', heq⟩ := openBlocks_iff.mp (hopen d hd)
        rw [ht] at ht'
        obtain rfl := Option.some.inj ht'
        rw [Flow.size, ← List.length_append, heq, List.length_map]
      obtain ⟨s', hs', -⟩ := openBlocks_iff.mp (hopen (done ++ [l]) (List.prefix_refl _))
      have hrun := hflow
      rw [hs', hs, Option.bind_some] at hrun
      obtain ⟨t, ht, hline⟩ := Option.bind_eq_some_iff.mp hrun.symm
      have hturn := turn_outermost hstep.waits_eq hsplit hremains
        ((hsize (List.prefix_append _ _) hs).trans (by rw [hdone.enclosing_eq])) ht hline
        ((hsize (List.prefix_refl _) hs').trans (by rw [henclosing]))
      rw [hsplit] at howes
      obtain ⟨howes', hkeep⟩ := howes.close_all hclosed ht
      obtain ⟨howes'', hkeep', hnew⟩ := howes'.line hstep.waits_eq hremains hline hturn
      refine ⟨?_, s', hs', howes'', ?_⟩
      · intro x hx
        rcases List.mem_append.mp hx with hx | hx
        · exact hclauses x hx
        · rw [List.mem_singleton.mp hx]
          exact hturn
      obtain hnested | hdoomed := hdoomed
      · have hone := hnested done (List.prefix_refl _)
        rw [hdone.enclosing_eq, hsplit, List.filter_append, List.length_append] at hone
        obtain hone' | hdoomed' := hnew (by omega)
        · refine Or.inl fun d hd => ?_
          rcases List.prefix_concat_iff.mp hd with rfl | hd
          · rwa [henclosing]
          · exact hnested d hd
        · exact Or.inr hdoomed'
      · rw [hsplit] at hdoomed
        exact Or.inr (hkeep' (hkeep hdoomed))

/-! ## The end of a program -/

/-- The dedent at the end closes everything. -/
theorem translate_flow {lines : List SourceLine} {frames : List Frame}
    (hvalid : (Place.mk frames none).Valid)
    (htracks : Tracks ⟨frames, none⟩ (transpile_lines lines))
    (h : (translate lines).reported = false) :
    flow (translate lines) =
      (flow (transpile_lines lines)).bind (Flow.close_all (frames.map frame_block)) := by
  have hall : ∀ b ∈ frames.map frame_block, 0 < b.block_indent ∧ supported_block b = true := by
    intro b hb
    obtain ⟨f, hf, rfl⟩ := List.mem_map.mp hb
    obtain ⟨hheader, hsupported⟩ := hvalid.nested.mem hf
    exact ⟨hvalid.nested.deeper hf, block_supported hheader hsupported f.body⟩
  have hblocks : (transpile_lines lines).blocks = frames.map frame_block ++ [] :=
    htracks.blocks.trans (List.append_nil _).symm
  have hrest : ∀ b, ([] : List Block).head? = some b → b.block_indent ≤ 0 := fun _ hb => nomatch hb
  unfold translate handle_dedent at h ⊢
  rw [hblocks] at h ⊢
  exact (pop_blocks_takes hall hrest (fun hflag => absurd hflag Bool.false_ne_true) h).flow_eq

theorem translate_reported {lines : List SourceLine} (h : (translate lines).reported = false) :
    (transpile_lines lines).reported = false :=
  pop_blocks_reported h

/-- **The braces are balanced exactly when every `else` and `elif` is on the outermost level and no
function is inside of a function.** -/
theorem balanced_iff (lines : List SourceLine) (hlines : WellIndented lines)
    (hdepth : ∀ done, done <+: lines → (enclosing done).length ≤ MAX_INDENTS)
    (hfit : (translate lines).reported = false) :
    Balanced lines ↔ ClausesOutermost lines ∧ NoNestedDef lines := by
  obtain ⟨frames, hlayout⟩ := hlines.layout
  obtain ⟨hreads, hvalid, htracks⟩ := reads_of_layout hlines.supported hlayout hdepth
    (translate_reported hfit)
  have hend := translate_flow hvalid htracks hfit
  have hframes : ∀ f ∈ frames, is_header f.header = true := fun f hf => (hvalid.nested.mem hf).1
  have hheaders : (Place.mk frames none).headers = frames.map Frame.header ++ [] :=
    (List.append_nil _).symm
  constructor
  · intro h
    obtain ⟨hclauses, s, hs, howes, hdoomed⟩ := hreads.doomed h.lines_open
    refine ⟨hclauses, hdoomed.resolve_right fun hdoomed => ?_⟩
    obtain ⟨t, ht, hclosed⟩ := openBlocks_iff.mp h.all_closed
    rw [hend, hs, Option.bind_some] at ht
    rw [hheaders] at howes hdoomed
    have hrest := (howes.close_all hframes ht).2 hdoomed
    exact not_doomed_of_closed (List.append_eq_nil_iff.mp hclosed).1 hrest
  · rintro ⟨hclauses, hnested⟩
    refine ⟨fun done hdone => ?_, ?_⟩
    · obtain ⟨q, hq⟩ := hreads.before hdone
      obtain ⟨s, hs, hgood⟩ := hq.good (fun l hl => hclauses l (hdone.subset hl))
        fun d hd => hnested d (hd.trans hdone)
      rw [hq.enclosing_eq]
      exact openBlocks_iff.mpr ⟨s, hs, hgood.open_all⟩
    · obtain ⟨s, hs, hgood⟩ := hreads.good hclauses hnested
      rw [hheaders] at hgood
      obtain ⟨t, ht, hgood'⟩ := hgood.close_all hframes
      refine openBlocks_iff.mpr ⟨t, ?_, hgood'.open_all⟩
      rw [hend, hs, Option.bind_some, ht]

/-! ### Two programs -/

theorem forall_before {lines : List SourceLine} {P : List SourceLine → Prop}
    (h : ∀ done ∈ lines.inits, P done) : ∀ done, done <+: lines → P done :=
  fun done hdone => h done ((List.mem_inits _ _).mpr hdone)

/-- A loop in a function; below it a condition with a `try` in its second branch. -/
def flat_clauses : List SourceLine :=
  [⟨0, .def_ "f" ["n"]⟩, ⟨4, .while_ "n"⟩, ⟨8, .simple (.assign "n" "g(n)")⟩, ⟨0, .if_ "a"⟩,
    ⟨2, .simple .pass_⟩, ⟨0, .else_⟩, ⟨2, .try_⟩, ⟨4, .simple (.expression "f(a)")⟩,
    ⟨2, .except_⟩, ⟨4, .simple .pass_⟩]

theorem balanced_iff_flat_clauses : Balanced flat_clauses :=
  (balanced_iff flat_clauses ⟨by decide, _, rfl⟩ (forall_before (by decide)) (by decide)).mpr
    ⟨by decide, forall_before (by decide)⟩

/-- A function that returns in both branches of a condition. -/
def nested_clause : List SourceLine :=
  [⟨0, .def_ "f" ["x"]⟩, ⟨4, .if_ "x"⟩, ⟨8, .simple (.return_expr "1")⟩, ⟨4, .else_⟩,
    ⟨8, .simple (.return_expr "2")⟩]

/-- At the `else` the condition is closed twice, the second time in the function's place. -/
theorem else_closes_function :
    ¬∀ lines : List SourceLine, WellIndented lines →
      (∀ done, done <+: lines → (enclosing done).length ≤ MAX_INDENTS) →
      (translate lines).reported = false → Balanced lines := by
  intro h
  have hbalanced := h nested_clause ⟨by decide, _, rfl⟩ (forall_before (by decide)) (by decide)
  obtain ⟨f, m, hfunc, hmain, hopen⟩ := hbalanced.lines_open (nested_clause.take 4)
    (List.take_prefix 4 _)
  have hfunc' : open_blocks (transpile_lines (nested_clause.take 4)).func_buffer = some [4] := by
    decide
  have hmain' : open_blocks (transpile_lines (nested_clause.take 4)).main_buffer = some [] := by
    decide
  rw [hfunc] at hfunc'
  rw [hmain] at hmain'
  rw [Option.some.inj hfunc', Option.some.inj hmain'] at hopen
  exact absurd hopen (by decide)

end SysInC.PythontLegacy
