/-
The conversions of `freestanding/docs/printf_doc.txt`.

A documented format comes with its arguments: it is literal text and conversions that hold the
value they print. So the format string, the arguments and the reference output are all read off it,
and `kvsnprintf` is compared with the last.
-/
import SysInC.KprintfPieces
import SysInC.Radix

set_option autoImplicit false

namespace SysInC.Kprintf

open CText Radix

/-! ## Documented formats -/

/-- A specifier of the table, with its argument. -/
inductive value
  | percent
  | c (w : UInt32)
  | s (str : Option c_string)
  | d (w : UInt32)
  | i (w : UInt32)
  | u (w : UInt32)
  | x (w : UInt32)
  | X (w : UInt32)
  | p (ptr : UInt64)
  | b (w : UInt32)

def value.letter : value → UInt8
  | .percent => '%'.toUInt8
  | .c _ => 'c'.toUInt8
  | .s _ => 's'.toUInt8
  | .d _ => 'd'.toUInt8
  | .i _ => 'i'.toUInt8
  | .u _ => 'u'.toUInt8
  | .x _ => 'x'.toUInt8
  | .X _ => 'X'.toUInt8
  | .p _ => 'p'.toUInt8
  | .b _ => 'b'.toUInt8

def value.arg : value → Option arg
  | .percent => none
  | .s str => some (.string str)
  | .p ptr => some (.pointer ptr)
  | .c w | .d w | .i w | .u w | .x w | .X w | .b w => some (.word w)

/-- A character of the text, or a conversion with its flag and the digits of its width. -/
inductive directive
  | char (c : UInt8) (hc : c ≠ 0 ∧ c ≠ '%'.toUInt8)
  | conv (left_align : Bool) (width : List (Fin 10)) (v : value)

def digit_char (d : Fin 10) : UInt8 := UInt8.ofNat (48 + d)

def directive.spell : directive → List UInt8
  | .char c _ => [c]
  | .conv left_align width v =>
    '%'.toUInt8 :: ((if left_align then ['-'.toUInt8] else [])
      ++ (width.map digit_char ++ [v.letter]))

def directive.arg : directive → Option arg
  | .char _ _ => none
  | .conv _ _ v => v.arg

theorem digit_char_ne_zero : ∀ d : Fin 10, digit_char d ≠ 0 := by decide

/-- The letters of the table are neither the NUL nor digits nor a minus. -/
theorem value.letter_spec (v : value) :
    v.letter ≠ 0 ∧ is_digit v.letter = false ∧ v.letter ≠ '-'.toUInt8 := by
  have hall : ∀ ch ∈ literal "%csdiuxXpb",
      ch ≠ 0 ∧ is_digit ch = false ∧ ch ≠ '-'.toUInt8 := by decide +kernel
  refine hall v.letter ?_
  cases v <;> exact List.mem_of_elem_eq_true rfl

theorem directive.zero_notMem_spell (d : directive) : 0 ∉ d.spell := by
  cases d with
  | char c hc => exact fun h => hc.1 (List.mem_singleton.mp h).symm
  | conv left_align width v =>
      simp only [spell, List.mem_cons, List.mem_append, List.mem_map, List.not_mem_nil, or_false,
        not_or, not_exists, not_and]
      refine ⟨by decide, ?_, fun d _ => digit_char_ne_zero d, v.letter_spec.1.symm⟩
      cases left_align <;> decide

/-- The format string. -/
def format_of (ds : List directive) : c_string where
  chars := ds.flatMap directive.spell
  no_nul := by
    rw [List.mem_flatMap]
    rintro ⟨d, -, hd⟩
    exact d.zero_notMem_spell hd

/-- One argument for each conversion, and none for a percent sign. -/
def arguments (ds : List directive) : List arg := ds.filterMap directive.arg

/-- The value in full. -/
def value.rendering : value → List UInt8
  | .percent => ['%'.toUInt8]
  | .c w => [w.toUInt8]
  | .s (some str) => str.chars
  | .s none => literal "(null)"
  | .d w | .i w => signed_numeral w.toInt32.toInt
  | .u w => numeral 10 false w.toNat
  | .x w => numeral 16 false w.toNat
  | .X w => numeral 16 true w.toNat
  | .p ptr => literal "0x" ++ numeral 16 false ptr.toNat
  | .b w => literal "0b" ++ numeral 2 false w.toNat

def width_of (width : List (Fin 10)) : ℕ := of_digits 10 (width.map Fin.val)

/-- The text in a field of that width. -/
def pad (left_align : Bool) (width : ℕ) (text : List UInt8) : List UInt8 :=
  if left_align then text ++ spaces (width - text.length) else spaces (width - text.length) ++ text

def directive.reference : directive → List UInt8
  | .char c _ => [c]
  | .conv _ _ .percent => ['%'.toUInt8]
  | .conv left_align width v => pad left_align (width_of width) v.rendering

def reference (ds : List directive) : List UInt8 := ds.flatMap directive.reference

/-! ## The claim and its condition -/

/-- The reference output and its NUL, with every argument consumed. -/
def Renders (max_len : UInt64) (ds : List directive) : Prop :=
  kvsnprintf true max_len (format_of ds) (arguments ds)
    = .ok ⟨reference ds ++ [0], (reference ds).length, []⟩

/-- The conversions that have the loops for the width. -/
def value.pads : value → Bool
  | .s _ | .d _ | .i _ | .u _ => true
  | _ => false

/-- What the code supports: no `%b`, no padding but in those, and in front of a percent sign a width
that is an `int`. -/
def Supported : directive → Prop
  | .char _ _ => True
  | .conv _ width .percent => width_of width < 2 ^ 31
  | .conv _ _ (.b _) => False
  | .conv _ width v => v.pads = true ∨ width_of width ≤ v.rendering.length

/-! ## The format in pieces -/

def directive.piece : directive → piece
  | .char c _ => .char c
  | .conv left_align width v => .conv left_align (width_of width) (switch v.letter)

theorem is_digit_digit_char : ∀ d : Fin 10, is_digit (digit_char d) = true := by decide

theorem digit_char_toNat : ∀ d : Fin 10, (digit_char d).toNat - 48 = d := by decide

theorem digit_char_ne_minus : ∀ d : Fin 10, digit_char d ≠ '-'.toUInt8 := by decide

theorem number_map_digit_char (width : List (Fin 10)) :
    number 0 (width.map digit_char) = width_of width := by
  rw [number, width_of, of_digits, List.foldl_map, List.foldl_map]
  refine congrArg (fun f => List.foldl f 0 width) ?_
  funext n d
  rw [digit_char_toNat]

/-- The flag is read where there is one, as neither a digit nor a letter is a minus. -/
theorem read_flag_spelled (left_align : Bool) (width : List (Fin 10)) (v : value)
    (rest : List UInt8) :
    read_flag ((if left_align then ['-'.toUInt8] else [])
        ++ (width.map digit_char ++ v.letter :: rest))
      = (left_align, width.map digit_char ++ v.letter :: rest) := by
  cases left_align with
  | true => rfl
  | false =>
      refine if_neg fun h => ?_
      cases width with
      | nil => exact v.letter_spec.2.2 (Option.some.inj h)
      | cons d width => exact digit_char_ne_minus d (Option.some.inj h)

/-- A directive is read as its piece. -/
theorem pieces_spell (d : directive) (rest : List UInt8) :
    pieces (d.spell ++ rest) = d.piece :: pieces rest := by
  cases d with
  | char c hc => exact pieces_char hc.2 rest
  | conv left_align width v =>
      have hletter : ¬ is_digit v.letter = true := ne_true_of_eq_false v.letter_spec.2.1
      have hall : ∀ c ∈ width.map digit_char, is_digit c = true := by
        intro c hc
        obtain ⟨d, -, rfl⟩ := List.mem_map.mp hc
        exact is_digit_digit_char d
      have hflag := read_flag_spelled left_align width v rest
      have hspell : directive.spell (.conv left_align width v) ++ rest
          = '%'.toUInt8 :: ((if left_align then ['-'.toUInt8] else [])
              ++ (width.map digit_char ++ v.letter :: rest)) := by
        simp only [directive.spell, List.cons_append, List.append_assoc, List.nil_append]
      have hdrop : (width.map digit_char ++ v.letter :: rest).dropWhile is_digit
          = v.letter :: rest := by
        rw [List.dropWhile_append_of_pos hall, List.dropWhile_cons_of_neg hletter]
      have htake : (width.map digit_char ++ v.letter :: rest).takeWhile is_digit
          = width.map digit_char := by
        rw [List.takeWhile_append_of_pos hall, List.takeWhile_cons_of_neg hletter,
          List.append_nil]
      rw [hspell, pieces_conv (by rw [hflag]; exact hdrop), hflag, htake, number_map_digit_char]
      rfl

theorem pieces_format (ds : List directive) :
    pieces (format_of ds).chars = ds.map directive.piece := by
  change pieces (ds.flatMap directive.spell) = ds.map directive.piece
  induction ds with
  | nil => exact pieces_nil
  | cons d ds ih => rw [List.flatMap_cons, pieces_spell, ih, List.map_cons]

theorem map_fst_calls (ds : List directive) (args : List arg) :
    (calls (format_of ds) args).map Prod.fst = ds.map directive.piece := by
  rw [calls, map_fst_assign, pieces_format]

/-! ## The arguments -/

/-- The `%b` is the one conversion that does not take its argument. -/
def directive.IsBinary : directive → Prop
  | .conv _ _ (.b _) => True
  | _ => False

def consumes (p : piece) : Bool := p.takes.isSome

theorem arguments_cons (d : directive) (ds : List directive) :
    arguments (d :: ds) = d.arg.toList ++ arguments ds := by
  rw [arguments, List.filterMap_cons]
  cases d.arg with
  | none => rfl
  | some a => rfl

theorem consumes_eq {d : directive} (hd : ¬ d.IsBinary) : consumes d.piece = d.arg.isSome := by
  cases d with
  | char c hc => rfl
  | conv left_align width v =>
      cases v with
      | b w => exact absurd trivial hd
      | percent => rfl
      | c w => rfl
      | s str => rfl
      | d w => rfl
      | i w => rfl
      | u w => rfl
      | x w => rfl
      | X w => rfl
      | p ptr => rfl

theorem given_eq {d : directive} (hd : ¬ d.IsBinary) (ds : List directive) :
    d.piece.given (arguments (d :: ds)) = d.arg
      ∧ d.piece.rest (arguments (d :: ds)) = arguments ds := by
  have hconsumes := consumes_eq hd
  rw [consumes] at hconsumes
  rw [piece.given, piece.rest, hconsumes, arguments_cons]
  cases d.arg with
  | none => exact ⟨rfl, rfl⟩
  | some a => exact ⟨rfl, rfl⟩

/-- Each piece with its own argument. -/
def own_calls (ds : List directive) : List (piece × Option arg) :=
  ds.map fun d => (d.piece, d.arg)

theorem own_calls_cons (d : directive) (ds : List directive) :
    own_calls (d :: ds) = (d.piece, d.arg) :: own_calls ds :=
  List.map_cons

theorem map_fst_own_calls (ds : List directive) :
    (own_calls ds).map Prod.fst = ds.map directive.piece := by
  rw [own_calls, List.map_map]
  rfl

/-- Without a `%b`, each conversion gets its own argument. -/
theorem calls_format {ds : List directive} (hds : ∀ d ∈ ds, ¬ d.IsBinary) :
    calls (format_of ds) (arguments ds) = own_calls ds := by
  rw [calls, pieces_format]
  induction ds with
  | nil => rfl
  | cons d ds ih =>
      obtain ⟨hgiven, hrest⟩ := given_eq (hds d List.mem_cons_self) ds
      rw [List.map_cons, assign, hgiven, hrest, own_calls_cons,
        ih fun d' hd' => hds d' (List.mem_cons_of_mem _ hd')]

theorem left_over_format {ds : List directive} (hds : ∀ d ∈ ds, ¬ d.IsBinary) :
    left_over (ds.map directive.piece) (arguments ds) = [] := by
  induction ds with
  | nil => rfl
  | cons d ds ih =>
      obtain ⟨-, hrest⟩ := given_eq (hds d List.mem_cons_self) ds
      rw [List.map_cons, left_over, List.foldl_cons, hrest]
      exact ih fun d' hd' => hds d' (List.mem_cons_of_mem _ hd')

theorem length_le_left_over (ps : List piece) (args : List arg) :
    args.length ≤ (left_over ps args).length + ps.countP consumes := by
  induction ps generalizing args with
  | nil => exact Nat.le_add_right _ _
  | cons p ps ih =>
      have hnext := ih (p.rest args)
      have hrest : args.length ≤ (p.rest args).length + if consumes p then 1 else 0 := by
        rw [piece.rest, consumes]
        split
        · rw [List.length_tail]
          omega
        · exact Nat.le_add_right _ _
      rw [List.countP_cons]
      change args.length ≤ (left_over ps (p.rest args)).length + _
      omega

theorem consumes_binary {d : directive} (hd : d.IsBinary) :
    consumes d.piece = false ∧ d.arg.isSome = true := by
  match d, hd with
  | .conv left_align width (.b w), _ => exact ⟨rfl, rfl⟩

/-- Each directive has an argument for its piece to consume, and a `%b` has one too many. -/
theorem countP_consumes_le (ds : List directive) :
    (ds.map directive.piece).countP consumes ≤ (arguments ds).length
      ∧ ((arguments ds).length ≤ (ds.map directive.piece).countP consumes →
        ∀ d ∈ ds, ¬ d.IsBinary) := by
  induction ds with
  | nil => exact ⟨le_rfl, fun _ _ h => absurd h List.not_mem_nil⟩
  | cons d ds ih =>
      obtain ⟨hle, hall⟩ := ih
      have harg : (arguments (d :: ds)).length
          = (if d.arg.isSome then 1 else 0) + (arguments ds).length := by
        rw [arguments_cons, List.length_append]
        cases d.arg with
        | none => rfl
        | some a => rfl
      rw [List.map_cons, List.countP_cons, harg]
      by_cases hd : d.IsBinary
      · obtain ⟨hpiece, hsome⟩ := consumes_binary hd
        rw [hpiece, hsome, if_pos rfl, if_neg Bool.false_ne_true]
        exact ⟨by omega, fun h => by omega⟩
      · rw [consumes_eq hd]
        refine ⟨by omega, fun h => ?_⟩
        intro d' hd'
        rcases List.mem_cons.mp hd' with rfl | hmem
        · exact hd
        · exact hall (by omega) d' hmem

/-! ## The texts -/

section Texts

variable {left_align : Bool} {width : ℕ} {text : List UInt8}

theorem pad_length (left_align : Bool) (width : ℕ) (text : List UInt8) :
    (pad left_align width text).length = text.length + (width - text.length) := by
  rw [pad, spaces]
  split
  · rw [List.length_append, List.length_replicate]
  · rw [List.length_append, List.length_replicate, Nat.add_comm]

theorem pad_of_le (left_align : Bool) (h : width ≤ text.length) :
    pad left_align width text = text := by
  rw [pad, Nat.sub_eq_zero_of_le h, spaces, List.replicate_zero, List.append_nil, List.nil_append,
    ite_self]

theorem padded_of_lt (left_align : Bool) (htext : text.length < 2 ^ 31) (hwidth : width < 2 ^ 31) :
    padded left_align width text = .ok (pad left_align width text) := by
  rw [padded, padding_of_lt htext hwidth]
  rfl

theorem string_rendering (str : Option c_string) :
    string_of (some (.string str)) = .ok (value.s str).rendering := by
  cases str with
  | none => rw [string_of, value.rendering]
  | some str => rfl

theorem text_of_pads {v : value} (hv : v.pads = true) (left_align : Bool) (width : ℕ) :
    (switch v.letter).text left_align width v.arg = padded left_align width v.rendering := by
  match v, hv with
  | .s str, _ =>
      change conversion.text left_align width (some (.string str)) .s = _
      rw [conversion.text, string_rendering, Except.bind]
  | .d w, _ =>
      change conversion.text left_align width (some (.word w)) .d = _
      rw [conversion.text, word_of, Except.bind, value.rendering]
  | .i w, _ =>
      change conversion.text left_align width (some (.word w)) .d = _
      rw [conversion.text, word_of, Except.bind, value.rendering]
  | .u w, _ =>
      change conversion.text left_align width (some (.word w)) .u = _
      rw [conversion.text, word_of, Except.bind, value.rendering]

theorem text_of_not_pads {v : value} (hv : v.pads = false) (hb : ∀ w, v ≠ .b w) (left_align : Bool)
    (width : ℕ) : (switch v.letter).text left_align width v.arg = .ok v.rendering := by
  match v, hv with
  | .percent, _ => rfl
  | .c w, _ => rfl
  | .x w, _ => rfl
  | .X w, _ => rfl
  | .p ptr, _ => rfl
  | .b w, _ => exact absurd rfl (hb w)

/-- The text of a conversion that takes its argument. -/
theorem text_conv {v : value} (hb : ∀ w, v ≠ .b w) (left_align : Bool) (hwidth : width < 2 ^ 31)
    (hlen : v.rendering.length < 2 ^ 31) :
    (piece.conv left_align width (switch v.letter)).text v.arg
      = .ok (if v.pads then pad left_align width v.rendering else v.rendering) := by
  rw [piece.text, if_pos hwidth]
  cases hv : v.pads with
  | true => rw [text_of_pads hv, padded_of_lt left_align hlen hwidth, if_pos rfl]
  | false => rw [text_of_not_pads hv hb, if_neg Bool.false_ne_true]

theorem printed_error {q : piece × Option arg} {e : fault} (h : q.1.text q.2 = .error e) :
    printed [q] = [] := by
  rw [printed, List.flatMap_singleton, h]
  rfl

theorem reference_conv {v : value} (hp : v ≠ .percent) (left_align : Bool)
    (width : List (Fin 10)) :
    (directive.conv left_align width v).reference
      = pad left_align (width_of width) v.rendering := by
  cases v with
  | percent => exact absurd rfl hp
  | _ => rfl

theorem supported_conv {v : value} (hp : v ≠ .percent) (hb : ∀ w, v ≠ .b w) (left_align : Bool)
    (width : List (Fin 10)) :
    Supported (.conv left_align width v)
      ↔ v.pads = true ∨ width_of width ≤ v.rendering.length := by
  cases v with
  | percent => exact absurd rfl hp
  | b w => exact absurd rfl (hb w)
  | _ => exact Iff.rfl

/-- What a directive prints is at most as long as its reference, and as long only where it is
supported; then it is the reference. -/
structure Falls (d : directive) : Prop where
  le : (printed [(d.piece, d.arg)]).length ≤ d.reference.length
  supported : (printed [(d.piece, d.arg)]).length = d.reference.length → Supported d
  text : Supported d → d.piece.text d.arg = .ok d.reference

theorem falls_percent (left_align : Bool) (width : List (Fin 10)) :
    Falls (.conv left_align width .percent) := by
  by_cases hwidth : width_of width < 2 ^ 31
  · have htext := text_conv (v := .percent) nofun left_align hwidth (by decide)
    have hprinted := printed_singleton (q := (_, _)) htext
    exact ⟨(congrArg List.length hprinted).le, fun _ => hwidth, fun _ => htext⟩
  · have htext : (directive.conv left_align width .percent).piece.text none = .error .overflow :=
      if_neg hwidth
    have hprinted := congrArg List.length (printed_error (q := (_, _)) htext)
    refine ⟨hprinted.le.trans (Nat.zero_le _), fun h => ?_, fun h => absurd h hwidth⟩
    exact absurd (hprinted.symm.trans h) Nat.zero_ne_one

theorem falls {d : directive} (hb : ¬ d.IsBinary) (hlen : d.reference.length < 2 ^ 31) :
    Falls d := by
  cases d with
  | char c hc =>
      have hprinted := printed_singleton (q := (directive.piece (.char c hc), none)) rfl
      exact ⟨(congrArg List.length hprinted).le, fun _ => trivial, fun _ => rfl⟩
  | conv left_align width v =>
      by_cases hp : v = .percent
      · rw [hp]
        exact falls_percent left_align width
      · have hb' : ∀ w, v ≠ .b w := by
          rintro w rfl
          exact hb trivial
        rw [reference_conv hp, pad_length] at hlen
        have hwidth : width_of width < 2 ^ 31 := by omega
        have hrendering : v.rendering.length < 2 ^ 31 := by omega
        have htext := text_conv hb' left_align hwidth hrendering
        have hprinted := printed_singleton (q := (_, _)) htext
        cases hv : v.pads with
        | true =>
            rw [hv, if_pos rfl, ← reference_conv hp] at htext hprinted
            refine ⟨(congrArg List.length hprinted).le, fun _ => ?_, fun _ => htext⟩
            exact (supported_conv hp hb' left_align width).mpr (.inl hv)
        | false =>
            rw [hv, if_neg Bool.false_ne_true] at htext hprinted
            have hlength := congrArg List.length hprinted
            have hpad := pad_length left_align (width_of width) v.rendering
            rw [← reference_conv hp] at hpad
            refine ⟨?_, fun h => ?_, fun h => ?_⟩
            · exact hlength.le.trans (by omega)
            · refine (supported_conv hp hb' left_align width).mpr (.inr ?_)
              have heq := hlength.symm.trans h
              omega
            · have hor := (supported_conv hp hb' left_align width).mp h
              have hle := hor.resolve_left (ne_true_of_eq_false hv)
              rw [reference_conv hp, pad_of_le left_align hle]
              exact htext

end Texts

/-! ## The result -/

section Result

variable {max_len : UInt64} {ds : List directive}

theorem reference_cons (d : directive) (ds : List directive) :
    reference (d :: ds) = d.reference ++ reference ds :=
  List.flatMap_cons

theorem length_reference_le {d : directive} (hd : d ∈ ds) :
    d.reference.length ≤ (reference ds).length :=
  (List.sublist_flatten_of_mem (List.mem_map_of_mem hd)).length_le

/-- The directives print as much as their references only if each of them does. -/
theorem printed_length_le (h : ∀ d ∈ ds, Falls d) :
    (printed (own_calls ds)).length ≤ (reference ds).length
      ∧ ((reference ds).length ≤ (printed (own_calls ds)).length →
        ∀ d ∈ ds, Supported d) := by
  induction ds with
  | nil => exact ⟨le_rfl, fun _ _ hd => absurd hd List.not_mem_nil⟩
  | cons d ds ih =>
      have hd := h d List.mem_cons_self
      have hle := hd.le
      obtain ⟨hrest, hall⟩ := ih fun d' hd' => h d' (List.mem_cons_of_mem _ hd')
      rw [own_calls_cons, printed_cons, reference_cons, List.length_append, List.length_append]
      refine ⟨by omega, fun hge => ?_⟩
      intro d' hd'
      rcases List.mem_cons.mp hd' with rfl | hmem
      · exact hd.supported (by omega)
      · exact hall (by omega) d' hmem

theorem printed_eq_reference (h : ∀ d ∈ ds, d.piece.text d.arg = .ok d.reference) :
    printed (own_calls ds) = reference ds := by
  induction ds with
  | nil => rfl
  | cons d ds ih =>
      have hd := printed_singleton (q := (d.piece, d.arg)) (h d List.mem_cons_self)
      rw [own_calls_cons, printed_cons, reference_cons, hd,
        ih fun d' hd' => h d' (List.mem_cons_of_mem _ hd')]

theorem not_isBinary {d : directive} (h : Supported d) : ¬ d.IsBinary := by
  intro hd
  match d, hd with
  | .conv left_align width (.b w), _ => exact h

/-- Only a conversion of the empty string has no text. -/
theorem arg_isSome_of_reference {d : directive} (h : d.reference = []) : d.arg.isSome = true := by
  cases d with
  | char c hc => exact absurd h (List.cons_ne_nil c [])
  | conv left_align width v =>
      cases v with
      | percent => exact absurd h (List.cons_ne_nil _ [])
      | _ => rfl

theorem renders_of_supported (hroom : (reference ds).length < max_len.toNat)
    (hds : ∀ d ∈ ds, Supported d) (hshort : (reference ds).length < 2 ^ 31)
    (hlast : (reference ds).length + 1 < max_len.toNat
      ∨ ∀ d ∈ ds.getLast?, d.reference ≠ []) : Renders max_len ds := by
  have hlen : 0 < max_len := UInt64.lt_iff_toNat_lt.mpr (Nat.zero_lt_of_lt hroom)
  have hsucc := room_succ hlen
  have hb : ∀ d ∈ ds, ¬ d.IsBinary := fun d hd => not_isBinary (hds d hd)
  have htext : ∀ d ∈ ds, d.piece.text d.arg = .ok d.reference := fun d hd =>
    (falls (hb d hd) ((length_reference_le hd).trans_lt hshort)).text (hds d hd)
  have hcalls : calls (format_of ds) (arguments ds) = own_calls ds := calls_format hb
  have hprinted : printed (own_calls ds) = reference ds := printed_eq_reference htext
  have hreached : reached (max_len - 1).toNat (own_calls ds) = own_calls ds := by
    refine reached_eq_self_iff.mpr fun front q hsplit => ?_
    have hlength := congrArg List.length hprinted
    rw [hsplit, printed_append, List.length_append] at hlength
    rcases hlast with hspare | hlast
    · omega
    · obtain ⟨init, rest, rfl, -, hrest⟩ := List.map_eq_append_iff.mp hsplit
      obtain ⟨d, rfl, rfl⟩ := List.map_eq_singleton_iff.mp hrest
      have hd := hlast d (by rw [List.getLast?_concat]; rfl)
      have hpos := List.length_pos_of_ne_nil hd
      rw [printed_singleton (htext d (List.mem_append_right _ (List.mem_singleton_self d)))]
        at hlength
      omega
  have hall : ∀ q ∈ reached (max_len - 1).toNat (calls (format_of ds) (arguments ds)),
      HasText q := by
    rw [hcalls, hreached]
    intro q hq
    obtain ⟨d, hd, rfl⟩ := List.mem_map.mp hq
    exact ⟨d.reference, htext d hd⟩
  obtain ⟨out, hout, hfills⟩ := kvsnprintf_ok hlen hall
  rw [hcalls, hprinted] at hfills
  have heq : out = reference ds := hfills.eq_whole (by omega)
  rw [hcalls, hreached, map_fst_own_calls, left_over_format hb, heq,
    (bmod_length_eq_iff _).mpr hshort] at hout
  exact hout

theorem supported_of_renders (hroom : (reference ds).length < max_len.toNat)
    (h : Renders max_len ds) :
    (∀ d ∈ ds, Supported d) ∧ (reference ds).length < 2 ^ 31
      ∧ ((reference ds).length + 1 < max_len.toNat ∨ ∀ d ∈ ds.getLast?, d.reference ≠ []) := by
  have hlen : 0 < max_len := UInt64.lt_iff_toNat_lt.mpr (Nat.zero_lt_of_lt hroom)
  have hsucc := room_succ hlen
  obtain ⟨out, hout, hfills⟩ := kvsnprintf_ok hlen (hasText_of_ok hlen h)
  have hresult := hout.symm.trans h
  obtain ⟨hbuf, hret, hleft⟩ := result.mk.inj (Except.ok.inj hresult)
  have heq : out = reference ds := List.append_cancel_right hbuf
  rw [heq] at hret hfills
  have hshort := (bmod_length_eq_iff _).mp hret
  -- the pieces that are reached have consumed all arguments
  have hcount := length_le_left_over
    ((reached (max_len - 1).toNat (calls (format_of ds) (arguments ds))).map Prod.fst)
    (arguments ds)
  rw [hleft, List.length_nil, Nat.zero_add] at hcount
  have hreach := reached_prefix_of (max_len - 1).toNat (calls (format_of ds) (arguments ds))
  have hpieces := (hreach.map Prod.fst).sublist.countP_le (p := consumes)
  rw [map_fst_calls] at hpieces
  have hb := (countP_consumes_le ds).2 (hcount.trans hpieces)
  have hcalls := calls_format hb
  rw [hcalls] at hcount hreach hfills
  have hfalls : ∀ d ∈ ds, Falls d := fun d hd =>
    falls (hb d hd) ((length_reference_le hd).trans_lt hshort)
  obtain ⟨hle, hsupported⟩ := printed_length_le hfalls
  have hlength := hfills.length_eq
  refine ⟨hsupported (by omega), hshort, ?_⟩
  by_cases hspare : (reference ds).length + 1 < max_len.toNat
  · exact .inl hspare
  · -- the buffer is full, so that a last conversion without a text would not be reached
    refine .inr fun d hd hnil => ?_
    obtain ⟨init, rfl⟩ := List.getLast?_eq_some_iff.mp hd
    have hsplit : own_calls (init ++ [d]) = own_calls init ++ [(d.piece, d.arg)] := List.map_append
    rw [hsplit] at hreach hlength
    rcases List.prefix_concat_iff.mp hreach with hall | hfront
    · rw [← hsplit] at hall
      have hlt := reached_eq_self_iff.mp hall (own_calls init) (d.piece, d.arg) hsplit
      have hlast := (hfalls d (List.mem_append_right _ (List.mem_singleton_self d))).le
      rw [printed_append, List.length_append] at hlength
      rw [hnil, List.length_nil] at hlast
      omega
    · have hinit := (hfront.map Prod.fst).sublist.countP_le (p := consumes)
      rw [map_fst_own_calls, ← hsplit] at hinit
      have harguments : (arguments (init ++ [d])).length = (arguments init).length + 1 := by
        obtain ⟨a, ha⟩ := Option.isSome_iff_exists.mp (arg_isSome_of_reference hnil)
        rw [arguments, List.filterMap_append, List.length_append, List.filterMap_cons_some ha]
        rfl
      have hle' := (countP_consumes_le init).1
      omega

/-- `kvsnprintf` renders a documented format exactly when all of its directives are supported, the
length of the output is an `int`, and no conversion without a text stands where the buffer is
full. -/
theorem renders_iff (max_len : UInt64) (ds : List directive)
    (hroom : (reference ds).length < max_len.toNat) :
    Renders max_len ds
      ↔ (∀ d ∈ ds, Supported d) ∧ (reference ds).length < 2 ^ 31
        ∧ ((reference ds).length + 1 < max_len.toNat
          ∨ ∀ d ∈ ds.getLast?, d.reference ≠ []) :=
  ⟨supported_of_renders hroom, fun h => renders_of_supported hroom h.1 h.2.1 h.2.2⟩

end Result

/-! ## Formats of the table -/

/-- `"%b"` with five. -/
def binary_five : List directive := [.conv false [] (.b 5)]

/-- A `b` is printed, and the argument is left. -/
theorem not_renders_binary :
    ¬ ∀ (max_len : UInt64) (ds : List directive),
      (reference ds).length < max_len.toNat → Renders max_len ds := by
  intro h
  have hroom : (reference binary_five).length < (64 : UInt64).toNat := by decide
  have hds := (supported_of_renders hroom (h 64 binary_five hroom)).1
  exact hds (.conv false [] (.b 5)) List.mem_cons_self

/-- `"%-4d%%"` with seven. -/
def seven_percent : List directive := [.conv true [⟨4, by decide⟩] (.d 7), .conv false [] .percent]

theorem renders_seven_percent : Renders 6 seven_percent := by
  have hroom : (reference seven_percent).length < (6 : UInt64).toNat := by decide
  refine (renders_iff 6 seven_percent hroom).mpr ⟨?_, ?_, ?_⟩
  · intro d hd
    simp only [seven_percent, List.mem_cons, List.not_mem_nil, or_false] at hd
    rcases hd with rfl | rfl
    · exact .inl rfl
    · exact (by decide : width_of [] < 2 ^ 31)
  · decide
  · refine .inr fun d hd => ?_
    cases hd
    decide

end SysInC.Kprintf
