/-
What `kvsnprintf` does to its buffer: the format as pieces, each with the argument it takes and the
text that it prints.

As long as every piece has a text, the loop writes the texts one after the other, as far as they
fit. A piece without a text stops it, but only where there is room left in front of it. So the loop
on the format is followed piece by piece, with `Fills` as its invariant.
-/
import SysInC.Kprintf

set_option autoImplicit false

namespace SysInC.Kprintf

open CText

/-! ## Pieces -/

inductive piece
  | char (c : UInt8)
  | conv (left_align : Bool) (width : ℕ) (what : conversion)
  /-- The format ends behind the flag and the width. -/
  | unfinished (width : ℕ)

def piece.width : piece → ℕ
  | .char _ => 0
  | .conv _ width _ => width
  | .unfinished width => width

/-- The number that the digits go on with. -/
def number (width : ℕ) (ds : List UInt8) : ℕ := ds.foldl (fun n c => n * 10 + (c.toNat - 48)) width

/-- The format in pieces. A lone percent sign at its end is none. -/
def pieces : List UInt8 → List piece
  | [] => []
  | c :: fmt =>
    if c ≠ '%'.toUInt8 then .char c :: pieces fmt
    else if fmt = [] then []
    else
      let width := number 0 ((read_flag fmt).2.takeWhile is_digit)
      match _hrest : (read_flag fmt).2.dropWhile is_digit with
      | [] => [.unfinished width]
      | ch :: rest => .conv (read_flag fmt).1 width (switch ch) :: pieces rest
termination_by fmt => fmt.length
decreasing_by
  · exact Nat.lt_succ_self _
  · have hdrop := (List.dropWhile_suffix is_digit (l := (read_flag fmt).2)).length_le
    have hflag := read_flag_length fmt
    rw [_hrest] at hdrop
    simp only [List.length_cons] at hdrop ⊢
    omega

section

-- the equations of this are made here, and not by each proof anew
attribute [local simp] pieces

end

theorem pieces_nil : pieces [] = [] := by rw [pieces]

theorem pieces_char {c : UInt8} (hc : c ≠ '%'.toUInt8) (fmt : List UInt8) :
    pieces (c :: fmt) = .char c :: pieces fmt := by
  rw [pieces, if_pos hc]

theorem pieces_unfinished {fmt : List UInt8} (hne : fmt ≠ [])
    (hrest : (read_flag fmt).2.dropWhile is_digit = []) :
    pieces ('%'.toUInt8 :: fmt)
      = [.unfinished (number 0 ((read_flag fmt).2.takeWhile is_digit))] := by
  rw [pieces, if_neg (not_not_intro rfl), if_neg hne]
  split
  · rfl
  · next h => exact absurd (h.symm.trans hrest) (List.cons_ne_nil _ _)

theorem pieces_conv {fmt : List UInt8} {ch : UInt8} {rest : List UInt8}
    (hrest : (read_flag fmt).2.dropWhile is_digit = ch :: rest) :
    pieces ('%'.toUInt8 :: fmt)
      = .conv (read_flag fmt).1 (number 0 ((read_flag fmt).2.takeWhile is_digit)) (switch ch)
        :: pieces rest := by
  have hne : fmt ≠ [] := by
    rintro rfl
    exact nomatch hrest
  rw [pieces, if_neg (not_not_intro rfl), if_neg hne]
  split
  · next h => exact absurd (h.symm.trans hrest) (List.cons_ne_nil _ _).symm
  · next h =>
      cases h.symm.trans hrest
      rfl

/-! ## Arguments -/

inductive kind
  | word | pointer | string
  deriving DecidableEq

def arg.kind : arg → kind
  | .word _ => .word
  | .pointer _ => .pointer
  | .string _ => .string

/-- The argument that a conversion takes, if any. -/
def conversion.takes : conversion → Option kind
  | .c | .d | .u | .x | .X => some .word
  | .s => some .string
  | .p => some .pointer
  | .percent | .other _ => none

def piece.takes : piece → Option kind
  | .conv _ _ what => what.takes
  | _ => none

/-- The argument for the piece, and those behind it. -/
def piece.given (p : piece) (args : List arg) : Option arg :=
  if p.takes.isSome then args.head? else none

def piece.rest (p : piece) (args : List arg) : List arg :=
  if p.takes.isSome then args.tail else args

/-- Each piece with its argument. -/
def assign : List piece → List arg → List (piece × Option arg)
  | [], _ => []
  | p :: ps, args => (p, p.given args) :: assign ps (p.rest args)

/-! ## Texts -/

/-- What `emit_padded` writes where there is room for it. -/
def padded (left_align : Bool) (width : ℕ) (text : List UInt8) : Except fault (List UInt8) :=
  (padding width text.length).map fun gap =>
    if left_align then text ++ spaces gap else spaces gap ++ text

def word_of : Option arg → Except fault UInt32
  | some (.word w) => .ok w
  | _ => .error .args

def pointer_of : Option arg → Except fault UInt64
  | some (.pointer ptr) => .ok ptr
  | _ => .error .args

def string_of : Option arg → Except fault (List UInt8)
  | some (.string (some str)) => .ok str.chars
  | some (.string none) => .ok (literal "(null)")
  | _ => .error .args

/-- What a conversion prints where there is room for it. -/
def conversion.text (left_align : Bool) (width : ℕ) (a : Option arg) :
    conversion → Except fault (List UInt8)
  | .percent => .ok ['%'.toUInt8]
  | .c => (word_of a).bind fun w => .ok [w.toUInt8]
  | .s => (string_of a).bind fun chars => padded left_align width chars
  | .d => (word_of a).bind fun w => padded left_align width (signed_numeral w.toInt32.toInt)
  | .u => (word_of a).bind fun w => padded left_align width (numeral 10 false w.toNat)
  | .x => (word_of a).bind fun w => .ok (numeral 16 false w.toNat)
  | .X => (word_of a).bind fun w => .ok (numeral 16 true w.toNat)
  | .p => (pointer_of a).bind fun ptr => .ok (literal "0x" ++ numeral 16 false ptr.toNat)
  | .other ch => .ok [ch]

def piece.text : piece → Option arg → Except fault (List UInt8)
  | .char c, _ => .ok [c]
  | .conv left_align width what, a =>
    if width < 2 ^ 31 then what.text left_align width a else .error .overflow
  | .unfinished _, _ => .error .read

/-- The texts one after the other. -/
def printed (calls : List (piece × Option arg)) : List UInt8 :=
  calls.flatMap fun q => (q.1.text q.2).toOption.getD []

/-! ## The loop on pieces -/

/-- One turn of the loop, where there is room. -/
def piece.print (max_len : UInt64) (out : List UInt8) (args : List arg) :
    piece → Except fault (List UInt8 × List arg)
  | .char c => (emit max_len out c).map (·, args)
  | .conv left_align width what =>
    if width < 2 ^ 31 then convert max_len left_align width out args what else .error .overflow
  | .unfinished width =>
    if width < 2 ^ 31 then (emit max_len out 0).bind fun _ => .error .read else .error .overflow

/-- The loop, piece by piece. -/
def print_all (max_len : UInt64) : List piece → List UInt8 → List arg →
    Except fault (List UInt8 × List arg)
  | [], out, args => .ok (out, args)
  | p :: ps, out, args =>
    if out.length < (max_len - 1).toNat then
      (p.print max_len out args).bind fun r => print_all max_len ps r.1 r.2
    else .ok (out, args)

section

-- the equations of these are made here, and not by each proof anew
attribute [local simp] read_width format print_all emit_all emit_padded emit_pointer padded
  convert printed assign piece.text piece.print

end

theorem le_number (width : ℕ) (ds : List UInt8) : width ≤ number width ds := by
  induction ds generalizing width with
  | nil => exact le_rfl
  | cons c ds ih =>
      have hstep : width ≤ width * 10 + (c.toNat - 48) := by omega
      exact hstep.trans (ih _)

/-- The width is read as its number, if that is an `int`. -/
theorem read_width_eq {width : ℕ} (hwidth : width < 2 ^ 31) (fmt : List UInt8) :
    read_width width fmt = if number width (fmt.takeWhile is_digit) < 2 ^ 31
      then .ok (number width (fmt.takeWhile is_digit), fmt.dropWhile is_digit)
      else .error .overflow := by
  induction fmt generalizing width with
  | nil => exact (if_pos hwidth).symm
  | cons c fmt ih =>
      rw [read_width]
      by_cases hdigit : is_digit c = true
      · rw [if_pos hdigit, List.takeWhile_cons_of_pos hdigit, List.dropWhile_cons_of_pos hdigit]
        have hnumber : number width (c :: fmt.takeWhile is_digit)
            = number (width * 10 + (c.toNat - 48)) (fmt.takeWhile is_digit) := rfl
        rw [hnumber]
        by_cases hnext : width * 10 + (c.toNat - 48) < 2 ^ 31
        · rw [if_pos hnext]
          exact ih hnext
        · -- the digits that follow do not make it smaller
          have hle := le_number (width * 10 + (c.toNat - 48)) (fmt.takeWhile is_digit)
          rw [if_neg hnext, if_neg (by omega)]
      · rw [if_neg hdigit, List.takeWhile_cons_of_neg hdigit, List.dropWhile_cons_of_neg hdigit]
        exact (if_pos hwidth).symm

theorem map_bind {α β γ : Type} (x : Except fault α) (f : α → β) (g : β → Except fault γ) :
    (x.map f).bind g = x.bind fun a => g (f a) := by
  cases x with
  | error e => rfl
  | ok a => rfl

/-- What the loop does with a percent sign, the flag and the width read. -/
def after_width (max_len : UInt64) (left_align : Bool) (out : List UInt8) (args : List arg) :
    ℕ × List UInt8 → Except fault (List UInt8 × List arg)
  | (_, []) => (emit max_len out 0).bind fun _ => .error .read
  | (width, ch :: rest) =>
    (convert max_len left_align width out args (switch ch)).bind fun r =>
      format max_len rest r.1 r.2

theorem format_percent (max_len : UInt64) {fmt : List UInt8} (hne : fmt ≠ []) (out : List UInt8)
    (args : List arg) :
    format max_len ('%'.toUInt8 :: fmt) out args
      = if out.length < (max_len - 1).toNat then
          (read_width 0 (read_flag fmt).2).bind (after_width max_len (read_flag fmt).1 out args)
        else .ok (out, args) := by
  rw [format, if_neg (not_not_intro rfl), if_neg hne]
  refine if_congr Iff.rfl ?_ rfl
  split
  · next e hread =>
      rw [hread]
      rfl
  · next hread =>
      rw [hread]
      rfl
  · next hread =>
      rw [hread]
      rfl

/-- The loop on the format is the loop on its pieces. -/
theorem format_eq_print_all (max_len : UInt64) (fmt out : List UInt8) (args : List arg) :
    format max_len fmt out args = print_all max_len (pieces fmt) out args := by
  fun_induction pieces fmt generalizing out args with
  | case1 => rw [format, print_all]
  | case2 c fmt hc ih =>
      simp only [format, if_pos hc, print_all, piece.print, map_bind, ih]
  | case3 c hc =>
      -- a lone percent sign: the loop is left
      rw [format, if_neg hc, if_pos rfl, ite_self, print_all]
  | case4 c fmt hc hne width hrest =>
      -- behind the flag and the width stands the NUL
      rw [not_not.mp hc, format_percent max_len hne, read_width_eq (by decide), hrest, print_all,
        piece.print]
      refine if_congr Iff.rfl ?_ rfl
      split_ifs with hwidth
      · rw [Except.bind, after_width]
        cases emit max_len out 0 with
        | error e => rfl
        | ok out => rfl
      · rfl
  | case5 c fmt hc hne width ch rest hrest ih =>
      rw [not_not.mp hc, format_percent max_len hne, read_width_eq (by decide), hrest, print_all,
        piece.print]
      refine if_congr Iff.rfl ?_ rfl
      split_ifs with hwidth
      · simp only [Except.bind, after_width, ih]
        rfl
      · rfl

/-! ## What fits -/

/-- What is in the buffer, of what has been printed: all of it, or as much as there is room for. -/
structure Fills (room : ℕ) (whole out : List UInt8) : Prop where
  length_eq : out.length = min whole.length room
  eq_whole : whole.length ≤ room → out = whole

section Room

variable {max_len : UInt64} {whole out text : List UInt8}

theorem room_succ (hlen : 0 < max_len) : (max_len - 1).toNat + 1 = max_len.toNat := by
  rw [UInt64.lt_iff_toNat_lt] at hlen
  rw [UInt64.toNat_sub_of_le _ _ (by rw [UInt64.le_iff_toNat_le]; exact hlen)]
  exact Nat.sub_add_cancel hlen

theorem fills_nil (room : ℕ) : Fills room [] [] := ⟨(Nat.zero_min room).symm, fun _ => rfl⟩

theorem Fills.eq_of_lt {room : ℕ} (h : Fills room whole out) (hlt : out.length < room) :
    out = whole := by
  have hlength := h.length_eq
  exact h.eq_whole (by omega)

theorem Fills.length_le {room : ℕ} (h : Fills room whole out) : out.length ≤ room := by
  rw [h.length_eq]
  exact Nat.min_le_right _ _

theorem emit_eq (hlen : 0 < max_len) (hroom : out.length ≤ (max_len - 1).toNat) (c : UInt8) :
    emit max_len out c = .ok (out ++ [c]) := by
  have := room_succ hlen
  rw [emit, if_pos (by omega)]

theorem emit_all_eq (hlen : 0 < max_len) (hroom : out.length ≤ (max_len - 1).toNat)
    (text : List UInt8) :
    emit_all max_len out text = .ok (out ++ text.take ((max_len - 1).toNat - out.length)) := by
  induction text generalizing out with
  | nil => rw [emit_all, List.take_nil, List.append_nil]
  | cons c text ih =>
      rw [emit_all]
      by_cases hlt : out.length < (max_len - 1).toNat
      · have hnext : (out ++ [c]).length ≤ (max_len - 1).toNat := by
          rw [List.length_append, List.length_singleton]
          exact hlt
        have htake : (max_len - 1).toNat - out.length
            = (max_len - 1).toNat - (out ++ [c]).length + 1 := by
          rw [List.length_append, List.length_singleton]
          omega
        rw [if_pos hlt, emit_eq hlen hroom, Except.bind, ih hnext, htake, List.take_succ_cons,
          List.append_assoc, List.singleton_append]
      · rw [if_neg hlt, Nat.sub_eq_zero_of_le (not_lt.mp hlt), List.take_zero, List.append_nil]

/-- The bounded loops keep the buffer filled. -/
theorem emit_all_fills (hlen : 0 < max_len) (h : Fills (max_len - 1).toNat whole out)
    (text : List UInt8) :
    ∃ out', emit_all max_len out text = .ok out'
      ∧ Fills (max_len - 1).toNat (whole ++ text) out' := by
  have hlength := h.length_eq
  refine ⟨_, emit_all_eq hlen h.length_le text, ?_, ?_⟩
  · rw [List.length_append, List.length_take, List.length_append]
    omega
  · intro hfits
    rw [List.length_append] at hfits
    rw [h.eq_whole (by omega), List.take_of_length_le (by omega)]

theorem emit_fills (hlen : 0 < max_len) (h : Fills (max_len - 1).toNat whole out)
    (hroom : out.length < (max_len - 1).toNat) (c : UInt8) :
    ∃ out', emit max_len out c = .ok out' ∧ Fills (max_len - 1).toNat (whole ++ [c]) out' := by
  refine ⟨_, emit_eq hlen hroom.le c, ?_, ?_⟩
  · rw [← h.eq_of_lt hroom, List.length_append, List.length_singleton]
    exact (Nat.min_eq_left hroom).symm
  · intro _
    rw [h.eq_of_lt hroom]

theorem emit_both_fills (hlen : 0 < max_len) (h : Fills (max_len - 1).toNat whole out)
    (first second : List UInt8) :
    ∃ out', ((emit_all max_len out first).bind fun out => emit_all max_len out second) = .ok out'
      ∧ Fills (max_len - 1).toNat (whole ++ (first ++ second)) out' := by
  obtain ⟨mid, hmid, hfills⟩ := emit_all_fills hlen h first
  obtain ⟨out', hout', hfills'⟩ := emit_all_fills hlen hfills second
  refine ⟨out', ?_, ?_⟩
  · rw [hmid, Except.bind, hout']
  · rwa [List.append_assoc] at hfills'

theorem emit_padded_eq_error (max_len : UInt64) {width : ℕ} (left_align : Bool) {e : fault}
    (h : padded left_align width text = .error e) (out : List UInt8) :
    ∃ e, emit_padded max_len left_align width out text = .error e := by
  rw [padded] at h
  rw [emit_padded]
  cases hgap : padding width text.length with
  | error e' => exact ⟨e', rfl⟩
  | ok gap =>
      rw [hgap] at h
      exact nomatch h

theorem emit_padded_fills (hlen : 0 < max_len) (h : Fills (max_len - 1).toNat whole out)
    {width : ℕ} (left_align : Bool) {full : List UInt8}
    (hfull : padded left_align width text = .ok full) :
    ∃ out', emit_padded max_len left_align width out text = .ok out'
      ∧ Fills (max_len - 1).toNat (whole ++ full) out' := by
  rw [padded] at hfull
  rw [emit_padded]
  cases hgap : padding width text.length with
  | error e => exact nomatch hgap ▸ hfull
  | ok gap =>
      rw [hgap] at hfull
      rw [Except.bind]
      cases left_align with
      | true =>
          cases hfull
          exact emit_both_fills hlen h text (spaces gap)
      | false =>
          cases hfull
          exact emit_both_fills hlen h (spaces gap) text

/-- Without room for the `0x`, the digits take what room there is. -/
theorem emit_pointer_fills (hlen : 0 < max_len) (h : Fills (max_len - 1).toNat whole out)
    (hroom : out.length < (max_len - 1).toNat) (ptr : UInt64) :
    ∃ out', emit_pointer max_len ptr out = .ok out'
      ∧ Fills (max_len - 1).toNat
          (whole ++ (literal "0x" ++ fmt_number ptr 16 false false)) out' := by
  have hsucc := room_succ hlen
  have htwo : (max_len - 2).toNat = max_len.toNat - 2 := by
    refine UInt64.toNat_sub_of_le _ _ ?_
    rw [UInt64.le_iff_toNat_le]
    exact Nat.le_of_lt_succ (by omega : 2 < max_len.toNat + 1)
  rw [emit_pointer]
  by_cases hmark : out.length < (max_len - 2).toNat
  · obtain ⟨one, hone, hfills⟩ := emit_fills hlen h hroom '0'.toUInt8
    have hroom' : one.length < (max_len - 1).toNat := by
      have hone' := hfills.length_eq
      rw [List.length_append, ← h.eq_of_lt hroom, List.length_singleton] at hone'
      omega
    obtain ⟨two, htwo, hfills'⟩ := emit_fills hlen hfills hroom' 'x'.toUInt8
    obtain ⟨out', hout', hall⟩ := emit_all_fills hlen hfills' (fmt_number ptr 16 false false)
    refine ⟨out', ?_, ?_⟩
    · simp only [if_pos hmark, Except.bind, hone, htwo, hout']
    · rw [List.append_assoc, List.append_assoc] at hall
      exact hall
  · -- the byte in front of the last one is the only one left
    have hlast : out.length + 1 = (max_len - 1).toNat := by omega
    have hdigits := numeral_length_pos 16 false ptr.toNat
    rw [← fmt_number_unsigned (by decide) (by decide) false ptr] at hdigits
    have hmark' : (literal "0x").length = 2 := rfl
    rw [if_neg hmark, emit_all_eq hlen hroom.le]
    refine ⟨_, rfl, ?_, ?_⟩
    · rw [List.length_append, List.length_take, List.length_append, List.length_append, hmark',
        ← h.eq_of_lt hroom]
      omega
    · intro hfits
      rw [List.length_append, List.length_append, hmark', ← h.eq_of_lt hroom] at hfits
      omega

end Room

/-! ## One turn -/

section Turn

variable {max_len : UInt64} {whole out text : List UInt8} {args : List arg}

/-- The outcomes of a turn: an error where the piece has no text, and else the text, as far as it
fits, and the arguments behind the one that the piece takes. -/
inductive Turns (room : ℕ) (whole : List UInt8) (rest : List arg) :
    Except fault (List UInt8) → Except fault (List UInt8 × List arg) → Prop
  | error (e e' : fault) : Turns room whole rest (.error e) (.error e')
  | ok {text out : List UInt8} (h : Fills room (whole ++ text) out) :
      Turns room whole rest (.ok text) (.ok (out, rest))

theorem turns_ok {room : ℕ} {x : Except fault (List UInt8)}
    (h : ∃ out', x = .ok out' ∧ Fills room (whole ++ text) out') (rest : List arg) :
    Turns room whole rest (.ok text) (x.map (·, rest)) := by
  obtain ⟨out', rfl, hfills⟩ := h
  exact .ok hfills

theorem turns_padded (hlen : 0 < max_len) (h : Fills (max_len - 1).toNat whole out)
    (left_align : Bool) (width : ℕ) (text : List UInt8) (rest : List arg) :
    Turns (max_len - 1).toNat whole rest (padded left_align width text)
      ((emit_padded max_len left_align width out text).map (·, rest)) := by
  cases hfull : padded left_align width text with
  | error e =>
      obtain ⟨e', he'⟩ := emit_padded_eq_error max_len left_align hfull out
      rw [he']
      exact .error e e'
  | ok full => exact turns_ok (emit_padded_fills hlen h left_align hfull) rest

theorem turns_bind {α : Type} {room : ℕ} {rest : List arg} (x : Except fault α)
    {t : α → Except fault (List UInt8)} {r : α → Except fault (List UInt8 × List arg)}
    (h : ∀ a, Turns room whole rest (t a) (r a)) :
    Turns room whole rest (x.bind t) (x.bind r) := by
  cases x with
  | error e => exact .error e e
  | ok a => exact h a

theorem va_word_eq (args : List arg) :
    va_word args = (word_of args.head?).map (·, args.tail) := by
  rcases args with - | ⟨w | ptr | str, args⟩ <;> rfl

theorem va_pointer_eq (args : List arg) :
    va_pointer args = (pointer_of args.head?).map (·, args.tail) := by
  rcases args with - | ⟨w | ptr | str, args⟩ <;> rfl

theorem va_string_eq (args : List arg) :
    va_string args = (string_of args.head?).map (·, args.tail) := by
  match args with
  | [] => rfl
  | .word w :: args => rfl
  | .pointer ptr :: args => rfl
  | .string none :: args => exact congrArg Except.ok rfl
  | .string (some str) :: args => rfl

theorem convert_turns (hlen : 0 < max_len) (h : Fills (max_len - 1).toNat whole out)
    (hroom : out.length < (max_len - 1).toNat) (left_align : Bool) (width : ℕ)
    (what : conversion) (args : List arg) :
    Turns (max_len - 1).toNat whole (if what.takes.isSome then args.tail else args)
      (what.text left_align width (if what.takes.isSome then args.head? else none))
      (convert max_len left_align width out args what) := by
  have hemit := fun c rest => turns_ok (emit_fills hlen h hroom c) rest
  have hall := fun text rest => turns_ok (emit_all_fills hlen h text) rest
  have hpadded := turns_padded hlen h left_align width
  cases what with
  | percent => exact hemit '%'.toUInt8 args
  | other ch => exact hemit ch args
  | c =>
      rw [convert, va_word_eq, map_bind]
      exact turns_bind _ fun w => hemit _ _
  | s =>
      rw [convert, va_string_eq, map_bind]
      exact turns_bind _ fun chars => hpadded _ _
  | d =>
      rw [convert, va_word_eq, map_bind]
      refine turns_bind _ fun w => ?_
      rw [← fmt_number_signed]
      exact hpadded _ _
  | u =>
      rw [convert, va_word_eq, map_bind]
      refine turns_bind _ fun w => ?_
      rw [← fmt_number_word (by decide) (by decide)]
      exact hpadded _ _
  | x =>
      rw [convert, va_word_eq, map_bind]
      refine turns_bind _ fun w => ?_
      rw [← fmt_number_word (by decide) (by decide)]
      exact hall _ _
  | X =>
      rw [convert, va_word_eq, map_bind]
      refine turns_bind _ fun w => ?_
      rw [← fmt_number_word (by decide) (by decide)]
      exact hall _ _
  | p =>
      rw [convert, va_pointer_eq, map_bind]
      refine turns_bind _ fun ptr => ?_
      rw [← fmt_number_unsigned (by decide) (by decide)]
      exact turns_ok (emit_pointer_fills hlen h hroom ptr) _

/-- The step lemma of the loop. -/
theorem print_turns (hlen : 0 < max_len) (h : Fills (max_len - 1).toNat whole out)
    (hroom : out.length < (max_len - 1).toNat) (p : piece) (args : List arg) :
    Turns (max_len - 1).toNat whole (p.rest args) (p.text (p.given args))
      (p.print max_len out args) := by
  cases p with
  | char c => exact turns_ok (emit_fills hlen h hroom c) args
  | conv left_align width what =>
      rw [piece.text, piece.print]
      split
      · exact convert_turns hlen h hroom left_align width what args
      · exact .error _ _
  | unfinished width =>
      rw [piece.print, emit_eq hlen hroom.le]
      split
      · exact .error _ _
      · exact .error _ _

end Turn

/-! ## The run -/

def HasText (q : piece × Option arg) : Prop := ∃ text, q.1.text q.2 = .ok text

/-- The pieces that begin where there is room. -/
def reached : ℕ → List (piece × Option arg) → List (piece × Option arg)
  | _, [] => []
  | room, q :: calls =>
    if 0 < room then q :: reached (room - (printed [q]).length) calls else []

/-- The arguments that the pieces leave. -/
def left_over (ps : List piece) (args : List arg) : List arg :=
  ps.foldl (fun args p => p.rest args) args

section Run

variable {max_len : UInt64}

theorem printed_append (front calls : List (piece × Option arg)) :
    printed (front ++ calls) = printed front ++ printed calls :=
  List.flatMap_append

theorem printed_cons (q : piece × Option arg) (calls : List (piece × Option arg)) :
    printed (q :: calls) = printed [q] ++ printed calls :=
  printed_append [q] calls

theorem printed_singleton {q : piece × Option arg} {text : List UInt8}
    (htext : q.1.text q.2 = .ok text) : printed [q] = text := by
  rw [printed, List.flatMap_singleton, htext]
  rfl

theorem room_left {q : piece × Option arg} {text : List UInt8} (htext : q.1.text q.2 = .ok text)
    (room : ℕ) (whole : List UInt8) :
    room - whole.length - (printed [q]).length = room - (whole ++ text).length := by
  rw [printed_singleton htext, List.length_append, Nat.sub_sub]

theorem print_all_full {out : List UInt8} (hfull : ¬ out.length < (max_len - 1).toNat)
    (ps : List piece) (args : List arg) : print_all max_len ps out args = .ok (out, args) := by
  cases ps with
  | nil => rfl
  | cons p ps => rw [print_all, if_neg hfull]

theorem Fills.append {room : ℕ} {whole out : List UInt8} (h : Fills room whole out)
    (hfull : ¬ out.length < room) (text : List UInt8) : Fills room (whole ++ text) out := by
  have hlength := h.length_eq
  refine ⟨?_, fun hfits => ?_⟩
  · rw [List.length_append]
    omega
  · rw [List.length_append] at hfits
    have hnil : text = [] := List.eq_nil_of_length_eq_zero (by omega)
    rw [hnil, List.append_nil]
    exact h.eq_whole (by omega)

theorem reached_full {room : ℕ} (h : room = 0) (calls : List (piece × Option arg)) :
    reached room calls = [] := by
  cases calls with
  | nil => rfl
  | cons q calls => rw [reached, if_neg (by omega)]

theorem reached_prefix_of (room : ℕ) (qs : List (piece × Option arg)) :
    reached room qs <+: qs := by
  induction qs generalizing room with
  | nil => exact List.prefix_rfl
  | cons q qs ih =>
      rw [reached]
      split
      · exact (List.prefix_cons_inj q).mpr (ih _)
      · exact List.nil_prefix

/-- Every piece is reached if and only if those in front of the last one leave room. -/
theorem reached_eq_self_iff {room : ℕ} {qs : List (piece × Option arg)} :
    reached room qs = qs ↔ ∀ front q, qs = front ++ [q] → (printed front).length < room := by
  induction qs generalizing room with
  | nil =>
      refine iff_of_true rfl ?_
      intro front q h
      exact absurd h.symm (List.append_ne_nil_of_right_ne_nil front (List.cons_ne_nil q []))
  | cons q qs ih =>
      rw [reached]
      by_cases hroom : 0 < room
      · rw [if_pos hroom, List.cons_inj_right, ih]
        constructor
        · intro h front r hsplit
          cases front with
          | nil => exact hroom
          | cons q' front =>
              cases hsplit
              have hlt := h front r rfl
              rw [printed_cons, List.length_append]
              omega
        · intro h front r hsplit
          have hlt := h (q :: front) r (by rw [hsplit, List.cons_append])
          rw [printed_cons, List.length_append] at hlt
          omega
      · rw [if_neg hroom]
        refine iff_of_false (List.cons_ne_nil q qs).symm fun h => ?_
        have hlt := h (q :: qs).dropLast ((q :: qs).getLast (List.cons_ne_nil q qs))
          (List.dropLast_append_getLast (List.cons_ne_nil q qs)).symm
        omega

/-- Over a run, the buffer is kept filled with the texts. -/
theorem print_all_ok (hlen : 0 < max_len) (ps : List piece) {whole out : List UInt8}
    (h : Fills (max_len - 1).toNat whole out) (args : List arg)
    (htext : ∀ q ∈ reached ((max_len - 1).toNat - whole.length) (assign ps args), HasText q) :
    ∃ out', print_all max_len ps out args
        = .ok (out', left_over ((reached ((max_len - 1).toNat - whole.length)
            (assign ps args)).map Prod.fst) args)
      ∧ Fills (max_len - 1).toNat (whole ++ printed (assign ps args)) out' := by
  have hlength := h.length_eq
  induction ps generalizing whole out args with
  | nil =>
      refine ⟨out, rfl, ?_⟩
      rw [assign, printed, List.flatMap_nil, List.append_nil]
      exact h
  | cons p ps ih =>
      by_cases hroom : out.length < (max_len - 1).toNat
      · have hpos : 0 < (max_len - 1).toNat - whole.length := by omega
        rw [assign, reached, if_pos hpos] at htext ⊢
        obtain ⟨text, hp⟩ := htext _ List.mem_cons_self
        have hrest := room_left hp (max_len - 1).toNat whole
        have hturn := print_turns hlen h hroom p args
        rw [hp] at hturn
        rw [print_all, if_pos hroom, hrest, printed_cons _ (assign ps _), printed_singleton hp]
        generalize p.print max_len out args = r at hturn
        cases hturn with
        | ok hfills =>
            rw [hrest] at htext
            obtain ⟨out', hout', hall⟩ := ih hfills (p.rest args)
              (fun q hq => htext q (List.mem_cons_of_mem _ hq)) hfills.length_eq
            rw [List.append_assoc] at hall
            exact ⟨out', hout', hall⟩
      · have hzero : (max_len - 1).toNat - whole.length = 0 := by omega
        refine ⟨out, ?_, h.append hroom _⟩
        rw [print_all_full hroom, reached_full hzero]
        rfl

/-- A piece without a text stops it. -/
theorem print_all_error (hlen : 0 < max_len) (ps : List piece) {whole out : List UInt8}
    (h : Fills (max_len - 1).toNat whole out) (args : List arg) {q : piece × Option arg}
    (hq : q ∈ reached ((max_len - 1).toNat - whole.length) (assign ps args)) (hq' : ¬ HasText q) :
    ∃ e, print_all max_len ps out args = .error e := by
  have hlength := h.length_eq
  induction ps generalizing whole out args with
  | nil => exact absurd hq List.not_mem_nil
  | cons p ps ih =>
      by_cases hroom : out.length < (max_len - 1).toNat
      · have hpos : 0 < (max_len - 1).toNat - whole.length := by omega
        rw [assign, reached, if_pos hpos] at hq
        rw [print_all, if_pos hroom]
        have hturn := print_turns hlen h hroom p args
        cases hp : p.text (p.given args) with
        | error e =>
            rw [hp] at hturn
            generalize p.print max_len out args = r at hturn
            cases hturn with
            | error e e' => exact ⟨e', rfl⟩
        | ok text =>
            have hrest := room_left (q := (p, p.given args)) hp (max_len - 1).toNat whole
            have hne : q ≠ (p, p.given args) := by
              rintro rfl
              exact hq' ⟨text, hp⟩
            have htail := (List.mem_cons.mp hq).resolve_left hne
            rw [hp] at hturn
            rw [hrest] at htail
            generalize p.print max_len out args = r at hturn
            cases hturn with
            | ok hfills => exact ih hfills (p.rest args) htail hfills.length_eq
      · have hzero : (max_len - 1).toNat - whole.length = 0 := by omega
        rw [reached_full hzero] at hq
        exact absurd hq List.not_mem_nil

theorem map_fst_assign (ps : List piece) (args : List arg) :
    (assign ps args).map Prod.fst = ps := by
  induction ps generalizing args with
  | nil => rfl
  | cons p ps ih => rw [assign, List.map_cons, ih]

/-- The pieces of the format, each with the argument that it takes. -/
def calls (fmt : c_string) (args : List arg) : List (piece × Option arg) :=
  assign (pieces fmt.chars) args

theorem kvsnprintf_eq (hlen : 0 < max_len) (fmt : c_string) (args : List arg) :
    kvsnprintf true max_len fmt args
      = (print_all max_len (pieces fmt.chars) [] args).bind fun r =>
          (emit max_len r.1 0).map fun buf => ⟨buf, (r.1.length : ℤ).bmod (2 ^ 32), r.2⟩ := by
  have hne : ¬ (¬ true = true ∨ max_len = 0) := by
    rintro (h | rfl)
    · exact h rfl
    · exact absurd hlen (by decide)
  rw [kvsnprintf, if_neg hne, format_eq_print_all]

theorem kvsnprintf_ok (hlen : 0 < max_len) {fmt : c_string} {args : List arg}
    (htext : ∀ q ∈ reached (max_len - 1).toNat (calls fmt args), HasText q) :
    ∃ out, kvsnprintf true max_len fmt args
        = .ok ⟨out ++ [0], (out.length : ℤ).bmod (2 ^ 32),
            left_over ((reached (max_len - 1).toNat (calls fmt args)).map Prod.fst) args⟩
      ∧ Fills (max_len - 1).toNat (printed (calls fmt args)) out := by
  obtain ⟨out, hout, hfills⟩ :=
    print_all_ok hlen (pieces fmt.chars) (fills_nil (max_len - 1).toNat) args htext
  refine ⟨out, ?_, hfills⟩
  rw [kvsnprintf_eq hlen, hout, Except.bind, emit_eq hlen hfills.length_le]
  rfl

theorem kvsnprintf_error (hlen : 0 < max_len) {fmt : c_string} {args : List arg}
    {q : piece × Option arg} (hq : q ∈ reached (max_len - 1).toNat (calls fmt args))
    (htext : ¬ HasText q) : ∃ e, kvsnprintf true max_len fmt args = .error e := by
  obtain ⟨e, he⟩ :=
    print_all_error hlen (pieces fmt.chars) (fills_nil (max_len - 1).toNat) args hq htext
  exact ⟨e, by rw [kvsnprintf_eq hlen, he, Except.bind]⟩

/-- A result says that each piece that was reached has a text. -/
theorem hasText_of_ok (hlen : 0 < max_len) {fmt : c_string} {args : List arg} {r : result}
    (h : kvsnprintf true max_len fmt args = .ok r) :
    ∀ q ∈ reached (max_len - 1).toNat (calls fmt args), HasText q := by
  intro q hq
  by_contra htext
  obtain ⟨e, he⟩ := kvsnprintf_error hlen hq htext
  rw [he] at h
  exact nomatch h

theorem bmod_length_eq_iff (n : ℕ) : (n : ℤ).bmod (2 ^ 32) = n ↔ n < 2 ^ 31 := by
  constructor
  · intro h
    have hlt := Int.bmod_lt (x := (n : ℤ)) (m := 2 ^ 32) (Nat.two_pow_pos 32)
    rw [h] at hlt
    omega
  · intro h
    exact Int.bmod_eq_of_le (by omega) (by omega)

theorem padding_ok {width len : ℕ} (h : (width : ℤ) - (len : ℤ).bmod (2 ^ 32) < 2 ^ 31) :
    padding width len = .ok ((width : ℤ) - (len : ℤ).bmod (2 ^ 32)).toNat := by
  unfold padding
  exact if_pos h

theorem padding_error {width len : ℕ} (h : ¬ (width : ℤ) - (len : ℤ).bmod (2 ^ 32) < 2 ^ 31) :
    padding width len = .error .overflow := by
  unfold padding
  exact if_neg h

theorem padding_of_lt {width len : ℕ} (hlen : len < 2 ^ 31) (hwidth : width < 2 ^ 31) :
    padding width len = .ok (width - len) := by
  have hbmod := (bmod_length_eq_iff len).mpr hlen
  rw [padding_ok (by omega), hbmod, Int.toNat_sub]

end Run

end SysInC.Kprintf
