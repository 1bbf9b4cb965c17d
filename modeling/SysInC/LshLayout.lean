/-
Layouts of a stage: words and redirections with blanks in front of them, in the order of the text,
and what the parser recognises in one. A redirection directly behind another's file is not seen as
one: the name of the file only ends at a blank and at the operators of the other direction, and
what it ends at is overwritten.
-/
import SysInC.LshReading
import Mathlib.Data.List.TakeWhile

set_option autoImplicit false

namespace SysInC.Lsh

/-! ## Layouts -/

def is_plain (c : Char) : Bool := !(is_blank c || c == '>' || c == '<') && c != '\x00'

def IsName (w : List Char) : Prop := w ≠ [] ∧ ∀ c ∈ w, is_plain c = true

def IsGap (gap : List Char) : Prop := ∀ c ∈ gap, is_blank c = true

inductive Item where
  | word (w : List Char)
  | redirect (op : Op) (gap target : List Char)

def Item.chars : Item → List Char
  | .word w => w
  | .redirect op gap target => op.chars ++ (gap ++ target)

def Item.Valid : Item → Prop
  | .word w => IsName w
  | .redirect _ gap target => IsGap gap ∧ IsName target

/-- An item with the blanks in front of it. -/
structure Placed where
  blanks : List Char
  item : Item

/-- Only a redirection may stand directly behind something. -/
structure Placed.Follows (p : Placed) : Prop where
  gap : IsGap p.blanks
  valid : p.item.Valid
  apart : ∀ w, p.item = .word w → p.blanks ≠ []

/-- The text of the items, with the blanks behind them. -/
def text : List Placed → List Char → List Char
  | [], last => last
  | p :: l, last => p.blanks ++ (p.item.chars ++ text l last)

structure Layout where
  items : List Placed
  last : List Char
  valid : ∀ p ∈ items.head?, IsGap p.blanks ∧ p.item.Valid
  follows : ∀ p ∈ items.tail, p.Follows
  gap : IsGap last

/-! ## What is recognised -/

/-- The file whose name is being read. -/
inductive Open where
  | nothing
  | inp (name : List Char)
  | out (name : List Char) (append : Bool)

def Op.opens : Op → List Char → Open
  | .inp, name => .inp name
  | .out, name => .out name false
  | .app, name => .out name true

/-- The words, each with whether an operator is directly behind it, and the files. -/
@[ext] structure Reading where
  entries : List (List Char × Bool)
  infile : Option (List Char)
  outfile : Option (List Char × Bool)

/-- The name of the file is complete. What is read behind it goes before. -/
def Reading.behind (r : Reading) : Open → Reading
  | .nothing => r
  | .inp name => { r with infile := r.infile.or (some name) }
  | .out name append => { r with outfile := r.outfile.or (some (name, append)) }

def glued : List Placed → Bool
  | [] => false
  | p :: _ => p.blanks.isEmpty

/-- A word is recognised if there is room for it. `rest` is what is recognised behind it. -/
def record (k : ℕ) (w : List Char) (l : List Placed) (rest : ℕ → Reading) : Reading :=
  if k < MAX_ARGS - 1 then
    { rest (k + 1) with entries := (w, glued l) :: (rest (k + 1)).entries }
  else rest k

/-- A redirection directly behind an item. `next` is what is recognised behind its file, and `stray`
what is recognised when the name of its file is taken for a word. -/
def join (o : Open) (op : Op) (gap target : List Char) (next : Open → Reading)
    (stray : Reading) : Reading :=
  match o, op with
  | .nothing, op => next (op.opens target)
  | .inp name, .inp =>
    if gap = [] then next (.inp (name ++ (Op.inp.chars ++ target)))
    else stray.behind (.inp (name ++ Op.inp.chars))
  | .inp name, .out => stray.behind (.inp name)
  | .inp name, .app => (next (.out target false)).behind (.inp name)
  | .out name append, .inp => stray.behind (.out name append)
  | .out name append, op =>
    if gap = [] then next (.out (name ++ (op.chars ++ target)) append)
    else stray.behind (.out (name ++ op.chars) append)

/-- What is recognised behind `k` arguments. -/
def follow (o : Open) (k : ℕ) : List Placed → Reading
  | [] => Reading.behind ⟨[], none, none⟩ o
  | ⟨_, .word w⟩ :: l => (record k w l fun k => follow .nothing k l).behind o
  | ⟨blanks, .redirect op gap target⟩ :: l =>
    if blanks ≠ [] then (follow (op.opens target) k l).behind o
    else join o op gap target (fun o => follow o k l)
      (record k target l fun k => follow .nothing k l)

/-! ## The parser recognises this -/

/-- An argument: the word, or something with an operator in it when one is directly behind. -/
def Shown (arg : List Char) (e : List Char × Bool) : Prop :=
  if e.2 = true then ∃ c ∈ arg, c = '>' ∨ c = '<' else arg = e.1

structure Shows (run : Run) (r : Reading) : Prop where
  args : List.Forall₂ Shown run.args r.entries
  infile : run.infile = r.infile
  outfile : run.outfile = r.outfile

theorem Shows.behind {run : Run} {r : Reading} (h : Shows run r) (op : Op) (name : List Char) :
    Shows (run.redirect op name) (r.behind (op.opens name)) := by
  cases op with
  | inp => exact ⟨h.args, congrArg (·.or (some name)) h.infile, h.outfile⟩
  | out => exact ⟨h.args, h.infile, congrArg (·.or (some (name, false))) h.outfile⟩
  | app => exact ⟨h.args, h.infile, congrArg (·.or (some (name, true))) h.outfile⟩

theorem plain_facts {c : Char} (h : is_plain c = true) :
    is_blank c = false ∧ c ≠ '>' ∧ c ≠ '<' ∧ c ≠ '\x00' := by
  simpa [is_plain, and_assoc] using h

theorem blank_facts {c : Char} (h : is_blank c = true) : c ≠ '>' ∧ c ≠ '<' ∧ c ≠ '\x00' := by
  rw [is_blank, Bool.or_eq_true, beq_iff_eq, beq_iff_eq] at h
  obtain rfl | rfl := h
  · decide
  · decide

theorem IsName.head {w : List Char} (h : IsName w) :
    ∃ c w', w = c :: w' ∧ is_plain c = true := by
  obtain ⟨c, w', rfl⟩ := List.exists_cons_of_ne_nil h.1
  exact ⟨c, w', rfl, h.2 c List.mem_cons_self⟩

/-- Blanks in front of a name. -/
theorem dropWhile_name {gap w : List Char} (hgap : IsGap gap) (hw : IsName w) (p : List Char) :
    (gap ++ (w ++ p)).dropWhile is_blank = w ++ p := by
  obtain ⟨c, w', rfl, hc⟩ := hw.head
  rw [List.dropWhile_append_of_pos hgap, List.cons_append, List.dropWhile_cons_of_neg]
  rw [(plain_facts hc).1]
  exact Bool.false_ne_true

theorem name_head {gap w : List Char} (hgap : IsGap gap) (hw : IsName w) (p : List Char) :
    ∀ c ∈ (gap ++ (w ++ p)).head?, c ≠ '>' ∧ c ≠ '<' := by
  intro c hc
  cases gap with
  | nil =>
    obtain ⟨c', w', rfl, hc'⟩ := hw.head
    obtain rfl := Option.some.inj hc
    exact ⟨(plain_facts hc').2.1, (plain_facts hc').2.2.1⟩
  | cons b gap =>
    obtain rfl := Option.some.inj hc
    have hblank := blank_facts (hgap _ List.mem_cons_self)
    exact ⟨hblank.1, hblank.2.1⟩

theorem dropWhile_op {gap : List Char} (hgap : IsGap gap) (op : Op) (p : List Char) :
    (gap ++ (op.chars ++ p)).dropWhile is_blank = op.chars ++ p := by
  rw [List.dropWhile_append_of_pos hgap]
  cases op with
  | inp => exact List.dropWhile_cons_of_neg (by decide)
  | out => exact List.dropWhile_cons_of_neg (by decide)
  | app => exact List.dropWhile_cons_of_neg (by decide)

theorem IsName.passes {w : List Char} (h : IsName w) (op : Op) :
    ∀ c ∈ w, is_blank c = false ∧ c ≠ op.stop := by
  intro c hc
  obtain ⟨hblank, hgt, hlt, -⟩ := plain_facts (h.2 c hc)
  cases op with
  | inp => exact ⟨hblank, hgt⟩
  | out => exact ⟨hblank, hlt⟩
  | app => exact ⟨hblank, hlt⟩

theorem Op.chars_head (op : Op) (q : List Char) :
    ∃ c cs, op.chars ++ q = c :: cs ∧ is_blank c = false ∧ (c = '>' ∨ c = '<') := by
  cases op with
  | inp => exact ⟨_, _, rfl, rfl, Or.inr rfl⟩
  | out => exact ⟨_, _, rfl, rfl, Or.inl rfl⟩
  | app => exact ⟨_, _, rfl, rfl, Or.inl rfl⟩

theorem Op.mem_chars {op : Op} {c : Char} (h : c ∈ op.chars) : c = '>' ∨ c = '<' := by
  cases op with
  | inp => exact Or.inr (List.mem_singleton.mp h)
  | out => exact Or.inl (List.mem_singleton.mp h)
  | app => exact Or.inl (List.eq_of_mem_replicate (show c ∈ List.replicate 2 '>' from h))

theorem Op.length_pos (op : Op) : 0 < op.chars.length := by
  cases op with
  | inp => decide
  | out => decide
  | app => decide

theorem Op.no_nul (op : Op) : ∀ c ∈ op.chars, c ≠ '\x00' := by
  intro c hc
  obtain rfl | rfl := Op.mem_chars hc
  · decide
  · decide

theorem Op.passes {op op' : Op} (h : op.stop ∉ op'.chars) :
    ∀ c ∈ op'.chars, is_blank c = false ∧ c ≠ op.stop := by
  intro c hc
  refine ⟨?_, ne_of_mem_of_not_mem hc h⟩
  obtain rfl | rfl := Op.mem_chars hc
  · rfl
  · rfl

theorem Item.Valid.no_nul {i : Item} (h : i.Valid) : ∀ c ∈ i.chars, c ≠ '\x00' := by
  intro c hc
  cases i with
  | word w => exact (plain_facts (h.2 c hc)).2.2.2
  | redirect op gap target =>
    obtain hop | hrest := List.mem_append.mp hc
    · exact op.no_nul c hop
    obtain hgap | htarget := List.mem_append.mp hrest
    · exact (blank_facts (h.1 c hgap)).2.2
    · exact (plain_facts (h.2.2 c htarget)).2.2.2

theorem text_no_nul {l : List Placed} (hl : ∀ p ∈ l, p.Follows) {last : List Char}
    (hlast : IsGap last) : ∀ c ∈ text l last, c ≠ '\x00' := by
  induction l with
  | nil => exact fun c hc => (blank_facts (hlast c hc)).2.2
  | cons p l ih =>
    rw [List.forall_mem_cons] at hl
    intro c hc
    obtain hblank | hrest := List.mem_append.mp hc
    · exact (blank_facts (hl.1.gap c hblank)).2.2
    obtain hitem | hrest := List.mem_append.mp hrest
    · exact hl.1.valid.no_nul c hitem
    · exact ih hl.2 c hrest

theorem upto_of_no_nul {w : List Char} (h : ∀ c ∈ w, c ≠ '\x00') (p : List Char) :
    upto (w ++ p) = w ++ upto p :=
  List.takeWhile_append_of_pos fun c hc => bne_iff_ne.mpr (h c hc)

theorem reads_blanks (n k : ℕ) {p q : List Char} (h : p.dropWhile is_blank = q.dropWhile is_blank) :
    (reads n k p).2 = (reads n k q).2 := by
  cases n with
  | zero => rfl
  | succ n =>
    rw [reads, reads, h]

theorem reads_nil (n k : ℕ) : reads n k [] = ([], ⟨[], none, none⟩) := by
  cases n with
  | zero => rfl
  | succ n => rfl

/-- The name of a file is all that is taken of it, for the NUL behind it. -/
theorem target_closed (stop : Char) {p : List Char} (hp : ∀ c ∈ p, c ≠ '\x00') (n k : ℕ) :
    upto ((ends_target stop p).1 ++ (ends_target stop p).2.1 ++
      (reads n k (ends_target stop p).2.2).1) = (ends_target stop p).1 := by
  have hname : ∀ c ∈ p.takeWhile (fun c => !(is_blank c || c == stop)), c ≠ '\x00' :=
    fun c hc => hp c ((List.takeWhile_sublist _).subset hc)
  unfold ends_target
  dsimp only
  generalize p.takeWhile (fun c => !(is_blank c || c == stop)) = name at hname
  cases p.drop name.length with
  | nil =>
    dsimp only
    rw [reads_nil, List.append_nil, upto_of_no_nul hname]
    exact List.append_nil _
  | cons b q =>
    dsimp only
    rw [List.append_assoc, upto_of_no_nul hname]
    exact List.append_nil _

theorem ends_target_append {stop : Char} {x y : List Char}
    (hx : ∀ c ∈ x, is_blank c = false ∧ c ≠ stop)
    (hy : ∀ c ∈ y.head?, is_blank c = true ∨ c = stop) :
    (ends_target stop (x ++ y)).1 = x ∧ (ends_target stop (x ++ y)).2.2 = y.tail := by
  have hname : (x ++ y).takeWhile (fun c => !(is_blank c || c == stop)) = x := by
    rw [List.takeWhile_append_of_pos]
    · cases y with
      | nil => exact List.append_nil _
      | cons c y =>
        rw [List.takeWhile_cons_of_neg, List.append_nil]
        rw [Bool.not_eq_true', Bool.not_eq_false, Bool.or_eq_true, beq_iff_eq]
        exact hy c rfl
    · intro c hc
      simpa using hx c hc
  unfold ends_target
  rw [hname]
  dsimp only
  rw [List.drop_left]
  cases y with
  | nil => exact ⟨rfl, rfl⟩
  | cons c y => exact ⟨rfl, rfl⟩

/-- The word in front. -/
theorem takeWhile_word {w y : List Char} (hw : ∀ c ∈ w, is_plain c = true)
    (hy : ∀ c ∈ y.head?, is_blank c = true ∨ c = '>' ∨ c = '<') :
    (w ++ y).takeWhile (fun c => !(is_blank c || c == '>' || c == '<')) = w := by
  rw [List.takeWhile_append_of_pos]
  · cases y with
    | nil => exact List.append_nil _
    | cons c y =>
      rw [List.takeWhile_cons_of_neg, List.append_nil]
      rw [Bool.not_eq_true', Bool.not_eq_false, Bool.or_eq_true, Bool.or_eq_true, beq_iff_eq,
        beq_iff_eq, or_assoc]
      exact hy c rfl
  · intro c hc
    obtain ⟨hblank, hgt, hlt, -⟩ := plain_facts (hw c hc)
    simp [hblank, hgt, hlt]

theorem ends_word_blank {w y : List Char} (hw : ∀ c ∈ w, is_plain c = true)
    (hy : ∀ c ∈ y.head?, is_blank c = true) (n k : ℕ) :
    (ends_word (w ++ y)).2.2 = y.tail ∧
      upto ((ends_word (w ++ y)).1 ++ (ends_word (w ++ y)).2.1 ++ (reads n k y.tail).1) = w := by
  have hnul := upto_of_no_nul fun c hc => (plain_facts (hw c hc)).2.2.2
  unfold ends_word
  rw [takeWhile_word hw fun c hc => Or.inl (hy c hc)]
  dsimp only
  rw [List.drop_left]
  cases y with
  | nil =>
    refine ⟨rfl, ?_⟩
    rw [List.tail_nil, reads_nil, List.append_nil, hnul]
    exact List.append_nil _
  | cons b y =>
    dsimp only
    rw [if_pos (hy b rfl)]
    refine ⟨rfl, ?_⟩
    rw [List.append_assoc, hnul]
    exact List.append_nil _

theorem ends_word_op {w : List Char} (hw : ∀ c ∈ w, is_plain c = true) (op : Op)
    (q : List Char) : ends_word (w ++ (op.chars ++ q)) = (w, [], op.chars ++ q) := by
  obtain ⟨c, cs, hcs, hblank, hc⟩ := op.chars_head q
  have hstop : ∀ c' ∈ (c :: cs).head?, is_blank c' = true ∨ c' = '>' ∨ c' = '<' := by
    intro c' hc'
    obtain rfl := Option.some.inj hc'
    exact Or.inr hc
  rw [hcs]
  unfold ends_word
  rw [takeWhile_word hw hstop]
  dsimp only
  rw [List.drop_left]
  dsimp only
  rw [hblank, if_neg Bool.false_ne_true]

/-- What is in the buffer at an operator. -/
theorem reads_op_front {n : ℕ} (hn : 0 < n) (k : ℕ) (op : Op) (q : List Char) :
    ∃ c cs, (reads n k (op.chars ++ q)).1 = c :: cs ∧ (c = '>' ∨ c = '<') := by
  obtain ⟨n, rfl⟩ := Nat.exists_eq_succ_of_ne_zero hn.ne'
  cases op with
  | inp => exact ⟨_, _, rfl, Or.inr rfl⟩
  | app => exact ⟨_, _, rfl, Or.inl rfl⟩
  | out =>
    cases q with
    | nil => exact ⟨_, _, rfl, Or.inl rfl⟩
    | cons c q =>
      by_cases hc : c = '>'
      · obtain rfl := hc
        exact ⟨_, _, rfl, Or.inl rfl⟩
      · have hitem : read_item k (reads n) ('>' :: c :: q) =
            read_redirect .out (c :: q) (reads n k) := by
          rw [read_item]
          exact fun p hp => hc (List.cons.inj hp).1
        have hreads : (reads (n + 1) k (Op.out.chars ++ c :: q)).1 =
            (read_redirect .out (c :: q) (reads n k)).1 := congrArg Prod.fst hitem
        exact ⟨'>', _, hreads, Or.inl rfl⟩

section

variable {last : List Char} (hlast : IsGap last) {l : List Placed} (hl : ∀ p ∈ l, p.Follows)

/-- What is read of the items is what is recognised in them. -/
def Reads (last : List Char) (l : List Placed) : Prop :=
  ∀ n k q, q.length ≤ n → q.dropWhile is_blank = (text l last).dropWhile is_blank →
    Shows (reads n k q).2 (follow .nothing k l)

/-- What is read from the name of a file on. -/
def ReadsName (n k : ℕ) (op : Op) (p : List Char) (r : Reading) : Prop :=
  Shows ((reads n k (ends_target op.stop p).2.2).2.redirect op (ends_target op.stop p).1) r

/-- The same as `Reads` within the name of a file. -/
def ReadsOn (last : List Char) (l : List Placed) : Prop :=
  ∀ n k op name, (∀ c ∈ name, is_blank c = false ∧ c ≠ Op.stop op) →
    (name ++ text l last).length ≤ n →
    ReadsName n k op (name ++ text l last) (follow (op.opens name) k l)

/-- The text of items begins with a blank, with an operator, or not at all. -/
theorem text_head (hlast : IsGap last) (hl : ∀ p ∈ l, p.Follows) :
    (glued l = false ∧ ∀ c ∈ (text l last).head?, is_blank c = true) ∨
      (glued l = true ∧ ∃ op q, text l last = Op.chars op ++ q) := by
  cases l with
  | nil =>
    refine Or.inl ⟨rfl, fun c hc => ?_⟩
    exact hlast c (List.mem_of_mem_head? hc)
  | cons p l =>
    have hp := hl p List.mem_cons_self
    obtain ⟨blanks, item⟩ := p
    cases blanks with
    | cons b blanks =>
      refine Or.inl ⟨rfl, fun c hc => ?_⟩
      obtain rfl := Option.some.inj hc
      exact hp.gap _ List.mem_cons_self
    | nil =>
      cases item with
      | word w => exact absurd rfl (hp.apart w rfl)
      | redirect op gap target =>
        exact Or.inr ⟨rfl, op, gap ++ target ++ text l last, List.append_assoc _ _ _⟩

/-- The characters of a word that there is no room for are passed over. -/
theorem reads_dropped (h : Reads last l) {k : ℕ} (hk : ¬ k < MAX_ARGS - 1) (n : ℕ)
    {w : List Char} (hw : ∀ c ∈ w, is_plain c = true) (hn : (w ++ text l last).length ≤ n) :
    Shows (reads n k (w ++ text l last)).2 (follow .nothing k l) := by
  induction w generalizing n with
  | nil => exact h n k _ hn rfl
  | cons c w ih =>
    rw [List.forall_mem_cons] at hw
    obtain ⟨hblank, hgt, hlt, -⟩ := plain_facts hw.1
    obtain ⟨n, rfl⟩ : ∃ m, n = m + 1 :=
      Nat.exists_eq_succ_of_ne_zero (by rw [List.cons_append, List.length_cons] at hn; omega)
    rw [List.cons_append, reads,
      List.dropWhile_cons_of_neg (by rw [hblank]; exact Bool.false_ne_true)]
    rw [read_item, if_neg hk]
    · exact ih n hw.2 (Nat.le_of_succ_le_succ hn)
    · exact fun _ hc => absurd hc hgt
    · exact hgt
    · exact hlt

theorem reads_word (hlast : IsGap last) (hl : ∀ p ∈ l, p.Follows) (h : Reads last l) (k n : ℕ)
    {w q : List Char} (hw : IsName w) (hq : q.dropWhile is_blank = w ++ text l last)
    (hn : q.length ≤ n) :
    Shows (reads n k q).2 (record k w l fun k => follow .nothing k l) := by
  have hlen : (w ++ text l last).length ≤ n :=
    (hq ▸ (List.dropWhile_suffix is_blank).length_le).trans hn
  obtain ⟨c, w', rfl, hc⟩ := hw.head
  rw [List.cons_append, List.length_cons, List.length_append] at hlen
  obtain ⟨n, rfl⟩ : ∃ m, n = m + 1 := Nat.exists_eq_succ_of_ne_zero (by omega)
  obtain ⟨-, hgt, hlt, -⟩ := plain_facts hc
  rw [reads, hq, List.cons_append, read_item, record]
  · split
    · rw [← List.cons_append, read_word]
      dsimp only
      obtain ⟨hglued, hhead⟩ | ⟨hglued, op, rest, hop⟩ := text_head hlast hl
      -- a blank ends the word, and is overwritten
      · obtain ⟨hrest, hword⟩ := ends_word_blank hw.2 hhead n (k + 1)
        have hskip : (text l last).tail.dropWhile is_blank =
            (text l last).dropWhile is_blank := by
          cases htext : text l last with
          | nil => rfl
          | cons b y =>
            rw [htext] at hhead
            rw [List.dropWhile_cons_of_pos (hhead b rfl), List.tail_cons]
        rw [hrest, hword, hglued]
        have hshows := h n (k + 1) (text l last).tail
          (by rw [List.length_tail]; omega) hskip
        exact ⟨.cons rfl hshows.args, hshows.infile, hshows.outfile⟩
      -- an operator does and is not, so that the argument goes on
      · have hpos : 0 < n := by
          have hop' := congrArg List.length hop
          have hpos := op.length_pos
          rw [List.length_append] at hop'
          omega
        have hshows := h n (k + 1) (text l last) (by omega) rfl
        obtain ⟨c', cs, hfront, hc'⟩ := reads_op_front hpos (k + 1) op rest
        rw [hglued]
        rw [hop, ends_word_op hw.2] at *
        dsimp only
        refine ⟨.cons ?_ hshows.args, hshows.infile, hshows.outfile⟩
        refine ⟨c', ?_, hc'⟩
        have hnul : (c' != '\x00') = true := by
          obtain rfl | rfl := hc'
          · decide
          · decide
        rw [List.append_nil, upto_of_no_nul fun c hc => (plain_facts (hw.2 c hc)).2.2.2, hfront,
          upto, List.takeWhile_cons, if_pos hnul]
        exact List.mem_append_right _ List.mem_cons_self
    -- there is no room: the word is passed over byte by byte
    · rename_i hk
      exact reads_dropped h hk n (fun c hc => hw.2 c (List.mem_cons_of_mem _ hc))
        (by rw [List.length_append]; omega)
  · exact fun _ h => absurd h hgt
  · exact hgt
  · exact hlt

theorem reads_redirect (hlast : IsGap last) (hl : ∀ p ∈ l, p.Follows) (h : ReadsOn last l)
    (k n : ℕ) {op : Op} {gap target q : List Char} (hgap : IsGap gap) (htarget : IsName target)
    (hq : q.dropWhile is_blank = op.chars ++ (gap ++ (target ++ text l last)))
    (hn : q.length ≤ n) :
    Shows (reads n k q).2 (follow (op.opens target) k l) := by
  have hlen : (op.chars ++ (gap ++ (target ++ text l last))).length ≤ n :=
    (hq ▸ (List.dropWhile_suffix is_blank).length_le).trans hn
  have hpos := op.length_pos
  rw [List.length_append, List.length_append] at hlen
  obtain ⟨n, rfl⟩ : ∃ m, n = m + 1 := Nat.exists_eq_succ_of_ne_zero (by omega)
  have hitem : read_item k (reads n) (op.chars ++ (gap ++ (target ++ text l last))) =
      read_redirect op (gap ++ (target ++ text l last)) (reads n k) := by
    cases op with
    | inp => rfl
    | app => rfl
    | out =>
      rw [Op.chars, List.singleton_append, read_item]
      exact fun p hp => (name_head hgap htarget _ '>' (by rw [hp]; rfl)).1 rfl
  have hnul : ∀ c ∈ target ++ text l last, c ≠ '\x00' := by
    intro c hc
    obtain hc | hc := List.mem_append.mp hc
    · exact (plain_facts (htarget.2 c hc)).2.2.2
    · exact text_no_nul hl hlast c hc
  rw [reads, hq, hitem, read_redirect, dropWhile_name hgap htarget]
  dsimp only
  rw [target_closed op.stop hnul]
  exact h n k op target (htarget.passes op) (by omega)

/-- An item in front of items that are read. -/
theorem Reads.cons (hlast : IsGap last) (hl : ∀ p ∈ l, p.Follows) (h : Reads last l)
    (hon : ReadsOn last l) {p : Placed} (hgap : IsGap p.blanks) (hvalid : p.item.Valid) :
    Reads last (p :: l) := by
  intro n k q hn hq
  obtain ⟨blanks, item⟩ := p
  cases item with
  | word w =>
    exact reads_word hlast hl h k n hvalid (hq.trans (dropWhile_name hgap hvalid _)) hn
  | redirect op gap target =>
    have htext : (op.chars ++ (gap ++ target)) ++ text l last =
        op.chars ++ (gap ++ (target ++ text l last)) := by
      rw [List.append_assoc, List.append_assoc]
    have hskip : (blanks ++ ((op.chars ++ (gap ++ target)) ++ text l last)).dropWhile is_blank =
        op.chars ++ (gap ++ (target ++ text l last)) := by
      rw [htext]
      exact dropWhile_op hgap op _
    have hshows := reads_redirect hlast hl hon k n hvalid.1 hvalid.2 (hq.trans hskip) hn
    rw [follow]
    split
    · exact hshows
    · exact hshows

/-- The name of a file is complete at a blank. -/
theorem follow_apart {p : Placed} (hp : p.blanks ≠ []) (o : Open) (k : ℕ) :
    follow o k (p :: l) = (follow .nothing k (p :: l)).behind o := by
  obtain ⟨blanks, item⟩ := p
  cases item with
  | word w => rfl
  | redirect op gap target =>
    have hfollow : ∀ o, follow o k (⟨blanks, .redirect op gap target⟩ :: l) =
        (follow (op.opens target) k l).behind o := fun o => by rw [follow, if_pos hp]
    rw [hfollow, hfollow]
    rfl

/-- What ends the name of a file is overwritten. -/
theorem ReadsName.ended {n k : ℕ} {op : Op} {name y : List Char} {r : Reading}
    (hname : ∀ c ∈ name, is_blank c = false ∧ c ≠ op.stop)
    (hy : ∀ c ∈ y.head?, is_blank c = true ∨ c = op.stop) (h : Shows (reads n k y.tail).2 r) :
    ReadsName n k op (name ++ y) (r.behind (op.opens name)) := by
  obtain ⟨hend, hrest⟩ := ends_target_append hname hy
  rw [ReadsName, hend, hrest]
  exact h.behind op name

/-- A redirection in the same direction directly behind is part of the name. -/
theorem ReadsName.swallowed (hlast : IsGap last) (hl : ∀ p ∈ l, p.Follows) (h : Reads last l)
    (hon : ReadsOn last l) {n k : ℕ} {op op' : Op} {name gap target : List Char}
    (hname : ∀ c ∈ name, is_blank c = false ∧ c ≠ op.stop)
    (hop : op.stop ∉ op'.chars) (hgap : IsGap gap) (htarget : IsName target)
    (hn : (name ++ (op'.chars ++ (gap ++ (target ++ text l last)))).length ≤ n) :
    ReadsName n k op (name ++ (op'.chars ++ (gap ++ (target ++ text l last))))
      (if gap = [] then follow (op.opens (name ++ (op'.chars ++ target))) k l
      else (record k target l fun k => follow .nothing k l).behind
        (op.opens (name ++ op'.chars))) := by
  cases gap with
  | nil =>
    have hassoc : name ++ (op'.chars ++ ([] ++ (target ++ text l last))) =
        name ++ (op'.chars ++ target) ++ text l last := by
      rw [List.nil_append, List.append_assoc, List.append_assoc]
    rw [if_pos rfl, hassoc]
    rw [hassoc] at hn
    refine hon n k op _ (fun c hc => ?_) hn
    obtain hc | hc := List.mem_append.mp hc
    · exact hname c hc
    obtain hc | hc := List.mem_append.mp hc
    · exact Op.passes hop c hc
    · exact htarget.passes op c hc
  | cons b gap =>
    have hb : is_blank b = true := hgap b List.mem_cons_self
    have hblank : IsGap gap := fun c hc => hgap c (List.mem_cons_of_mem _ hc)
    rw [if_neg (List.cons_ne_nil _ _), ← List.append_assoc]
    refine ReadsName.ended (fun c hc => ?_) (fun c hc => ?_) ?_
    · obtain hc | hc := List.mem_append.mp hc
      · exact hname c hc
      · exact Op.passes hop c hc
    · obtain rfl := Option.some.inj hc
      exact Or.inl hb
    · refine reads_word hlast hl h k n htarget (dropWhile_name hblank htarget _) ?_
      rw [List.length_append, List.length_append, List.cons_append, List.length_cons] at hn
      rw [List.cons_append, List.tail_cons]
      omega

/-- A redirection directly behind the name of a file. -/
theorem ReadsName.glued (hlast : IsGap last) (hl : ∀ p ∈ l, p.Follows) (h : Reads last l)
    (hon : ReadsOn last l) {n k : ℕ} {op op' : Op} {name gap target : List Char}
    (hname : ∀ c ∈ name, is_blank c = false ∧ c ≠ op.stop) (hgap : IsGap gap)
    (htarget : IsName target)
    (hn : (name ++ (op'.chars ++ (gap ++ (target ++ text l last)))).length ≤ n) :
    ReadsName n k op (name ++ (op'.chars ++ (gap ++ (target ++ text l last))))
      (follow (op.opens name) k (⟨[], .redirect op' gap target⟩ :: l)) := by
  have hlen : (gap ++ (target ++ text l last)).length ≤ n := by
    rw [List.length_append, List.length_append] at hn
    omega
  -- the operator ends the name, and the file behind it becomes a word
  have hstray := reads_word hlast hl h k n htarget (dropWhile_name hgap htarget _) hlen
  rw [follow, if_neg (not_not_intro rfl)]
  cases op with
  | inp =>
    cases op' with
    | inp =>
      exact ReadsName.swallowed hlast hl h hon hname (by decide) hgap htarget hn
    | out =>
      exact ReadsName.ended hname (fun c hc => Or.inr (Option.some.inj hc).symm) hstray
    | app =>
      -- the first `>` ends the name and the second is left
      have hout : Shows (reads n k (Op.out.chars ++ (gap ++ (target ++ text l last)))).2
          (follow (Op.out.opens target) k l) := by
        refine reads_redirect hlast hl hon k n hgap htarget rfl ?_
        have happ : Op.app.chars.length = Op.out.chars.length + 1 := rfl
        rw [List.length_append, List.length_append, happ] at hn
        rw [List.length_append]
        omega
      exact ReadsName.ended hname (fun c hc => Or.inr (Option.some.inj hc).symm) hout
  | out =>
    cases op' with
    | inp =>
      exact ReadsName.ended hname (fun c hc => Or.inr (Option.some.inj hc).symm) hstray
    | out =>
      exact ReadsName.swallowed hlast hl h hon hname (by decide) hgap htarget hn
    | app =>
      exact ReadsName.swallowed hlast hl h hon hname (by decide) hgap htarget hn
  | app =>
    cases op' with
    | inp =>
      exact ReadsName.ended hname (fun c hc => Or.inr (Option.some.inj hc).symm) hstray
    | out =>
      exact ReadsName.swallowed hlast hl h hon hname (by decide) hgap htarget hn
    | app =>
      exact ReadsName.swallowed hlast hl h hon hname (by decide) hgap htarget hn

theorem reads_all (hlast : IsGap last) (hl : ∀ p ∈ l, p.Follows) :
    Reads last l ∧ ReadsOn last l := by
  induction l with
  | nil =>
    have hnone : ∀ n k q, q.dropWhile is_blank = [] →
        Shows (reads n k q).2 (follow .nothing k []) := by
      intro n k q hq
      rw [reads_blanks n k (hq.trans rfl : _ = ([] : List Char).dropWhile is_blank), reads_nil]
      exact ⟨.nil, rfl, rfl⟩
    have hblank : last.dropWhile is_blank = [] := List.dropWhile_eq_nil_iff.mpr hlast
    refine ⟨fun n k q _ hq => hnone n k q (hq.trans hblank), fun n k op name hname _ => ?_⟩
    refine ReadsName.ended hname (fun c hc => Or.inl (hlast c (List.mem_of_mem_head? hc))) ?_
    refine hnone n k last.tail (List.dropWhile_eq_nil_iff.mpr fun c hc => ?_)
    exact hlast c (List.mem_of_mem_tail hc)
  | cons p l ih =>
    rw [List.forall_mem_cons] at hl
    obtain ⟨hreads, hon⟩ := ih hl.2
    have hcons := hreads.cons hlast hl.2 hon hl.1.gap hl.1.valid
    refine ⟨hcons, fun n k op name hname hn => ?_⟩
    obtain ⟨blanks, item⟩ := p
    cases blanks with
    | cons b blanks =>
      have hb : is_blank b = true := hl.1.gap b List.mem_cons_self
      rw [follow_apart (List.cons_ne_nil b blanks)]
      refine ReadsName.ended hname (fun c hc => ?_) (hcons n k _ ?_ ?_)
      · obtain rfl := Option.some.inj hc
        exact Or.inl hb
      · rw [List.length_append] at hn
        rw [List.length_tail]
        omega
      · exact (List.dropWhile_cons_of_pos hb).symm
    | nil =>
      cases item with
      | word w => exact absurd rfl (hl.1.apart w rfl)
      | redirect op' gap target =>
        have htext : text (⟨[], .redirect op' gap target⟩ :: l) last =
            op'.chars ++ (gap ++ (target ++ text l last)) := by
          show op'.chars ++ (gap ++ target) ++ text l last = _
          rw [List.append_assoc, List.append_assoc]
        rw [htext] at hn ⊢
        exact ReadsName.glued hlast hl.2 hreads hon hname hl.1.valid.1 hl.1.valid.2 hn

end

/-- **The parser of a stage.** The command that it reads from the text of a layout. -/
theorem parse_layout (s : Layout) :
    Shows (parse_stage (text s.items s.last)) (follow .nothing 0 s.items) := by
  have hreads : Reads s.last s.items := by
    obtain ⟨items, last, valid, follows, gap⟩ := s
    cases items with
    | nil => exact (reads_all gap follows).1
    | cons p l =>
      obtain ⟨hgap, hvalid⟩ := valid p rfl
      obtain ⟨hl, hon⟩ := reads_all gap follows
      exact hl.cons gap follows hon hgap hvalid
  rw [parse_stage_eq]
  exact hreads _ 0 _ le_rfl rfl

end SysInC.Lsh
