/-
`kvsnprintf` of `freestanding/kprintf.c`, with a `size_t` and pointers of 64 bits.

A string is its characters without the NUL, and the format is read as what is left of it: at `[]`
the function is at the NUL. The buffer is what has been written of it, so that `pos` is its length.
-/
import SysInC.CText
import Mathlib.Algebra.Order.Ring.Int
import Mathlib.Data.List.TakeWhile
import Mathlib.Tactic.Ring

set_option autoImplicit false

namespace SysInC.Kprintf

open CText

structure c_string where
  chars : List UInt8
  no_nul : 0 ∉ chars

/-- An argument, as it lies in the `va_list`. -/
inductive arg
  | word (w : UInt32)
  | pointer (p : UInt64)
  /-- A `const char *`; `none` is NULL. -/
  | string (s : Option c_string)

/-- What stops the function: a write behind the buffer, a read behind the NUL of the format, an
argument that is missing or of another type, an `int` that overflows. -/
inductive fault
  | write | read | args | overflow
  deriving DecidableEq

/-! ## Numbers -/

/-- `digits[d]` -/
def digits (uppercase : Bool) (d : ℕ) : UInt8 :=
  (literal (if uppercase then "0123456789ABCDEF" else "0123456789abcdef")).getD d 0

/-- `while (val > 0)`, for the bases from two on. -/
def push_digits (base : ℕ) (uppercase : Bool) (val : ℕ) : List UInt8 :=
  if 1 < base ∧ 0 < val then
    digits uppercase (val % base) :: push_digits base uppercase (val / base)
  else []
termination_by val
decreasing_by exact Nat.div_lt_self (by omega) (by omega)

def fmt_number (val : UInt64) (base : ℕ) (is_signed uppercase : Bool) : List UInt8 :=
  let is_neg := is_signed && decide (val.toInt64 < 0)
  let val := if is_neg then -val else val
  let temp := if val = 0 then ['0'.toUInt8] else push_digits base uppercase val.toNat
  (if is_neg then ['-'.toUInt8] else []) ++ temp.reverse

/-! ## The arguments -/

/-- `va_arg(args, int)` and `va_arg(args, unsigned int)` -/
def va_word : List arg → Except fault (UInt32 × List arg)
  | .word w :: args => .ok (w, args)
  | _ => .error .args

/-- `va_arg(args, void *)` -/
def va_pointer : List arg → Except fault (UInt64 × List arg)
  | .pointer p :: args => .ok (p, args)
  | _ => .error .args

/-- `va_arg(args, const char *)`, with `"(null)"` for NULL. -/
def va_string : List arg → Except fault (List UInt8 × List arg)
  | .string (some s) :: args => .ok (s.chars, args)
  | .string none :: args => .ok (literal "(null)", args)
  | _ => .error .args

/-! ## Writing -/

section Writing

variable (max_len : UInt64)

/-- `buf[pos++] = c;` -/
def emit (out : List UInt8) (c : UInt8) : Except fault (List UInt8) :=
  if out.length < max_len.toNat then .ok (out ++ [c]) else .error .write

/-- The loops on `pos < max_len - 1`. -/
def emit_all (out : List UInt8) : List UInt8 → Except fault (List UInt8)
  | [] => .ok out
  | c :: text =>
    if out.length < (max_len - 1).toNat then
      (emit max_len out c).bind fun out => emit_all out text
    else .ok out

/-- `width - (int)len`, for a loop that counts up to it from zero. -/
def padding (width len : ℕ) : Except fault ℕ :=
  let gap : ℤ := width - (len : ℤ).bmod (2 ^ 32)
  if gap < 2 ^ 31 then .ok gap.toNat else .error .overflow

def spaces (n : ℕ) : List UInt8 := List.replicate n ' '.toUInt8

/-- The three loops of `%s`, `%d` and `%u`. -/
def emit_padded (left_align : Bool) (width : ℕ) (out text : List UInt8) :
    Except fault (List UInt8) :=
  (padding width text.length).bind fun gap =>
    if left_align then
      (emit_all max_len out text).bind fun out => emit_all max_len out (spaces gap)
    else
      (emit_all max_len out (spaces gap)).bind fun out => emit_all max_len out text

/-- `if (pos < max_len - 2)`, and the digits. -/
def emit_pointer (p : UInt64) (out : List UInt8) : Except fault (List UInt8) :=
  if out.length < (max_len - 2).toNat then
    (emit max_len out '0'.toUInt8).bind fun out => (emit max_len out 'x'.toUInt8).bind fun out =>
      emit_all max_len out (fmt_number p 16 false false)
  else emit_all max_len out (fmt_number p 16 false false)

/-- The cases of the `switch`. -/
inductive conversion
  | percent | c | s | d | u | x | X | p
  | other (ch : UInt8)
  deriving DecidableEq

def switch (ch : UInt8) : conversion :=
  if ch = '%'.toUInt8 then .percent
  else if ch = 'c'.toUInt8 then .c
  else if ch = 's'.toUInt8 then .s
  else if ch = 'd'.toUInt8 ∨ ch = 'i'.toUInt8 then .d
  else if ch = 'u'.toUInt8 then .u
  else if ch = 'x'.toUInt8 then .x
  else if ch = 'X'.toUInt8 then .X
  else if ch = 'p'.toUInt8 then .p
  else .other ch

/-- `(uint64_t)(int64_t)val` of an `int` -/
def sign_extend (w : UInt32) : UInt64 := w.toInt32.toInt64.toUInt64

def convert (left_align : Bool) (width : ℕ) (out : List UInt8) (args : List arg) :
    conversion → Except fault (List UInt8 × List arg)
  | .percent => (emit max_len out '%'.toUInt8).map (·, args)
  | .c => (va_word args).bind fun (w, args) => (emit max_len out w.toUInt8).map (·, args)
  | .s => (va_string args).bind fun (s, args) =>
      (emit_padded max_len left_align width out s).map (·, args)
  | .d => (va_word args).bind fun (w, args) =>
      (emit_padded max_len left_align width out
        (fmt_number (sign_extend w) 10 true false)).map (·, args)
  | .u => (va_word args).bind fun (w, args) =>
      (emit_padded max_len left_align width out
        (fmt_number w.toUInt64 10 false false)).map (·, args)
  | .x => (va_word args).bind fun (w, args) =>
      (emit_all max_len out (fmt_number w.toUInt64 16 false false)).map (·, args)
  | .X => (va_word args).bind fun (w, args) =>
      (emit_all max_len out (fmt_number w.toUInt64 16 false true)).map (·, args)
  | .p => (va_pointer args).bind fun (p, args) => (emit_pointer max_len p out).map (·, args)
  | .other ch => (emit max_len out ch).map (·, args)

end Writing

/-! ## The format -/

/-- `if (fmt[i] == '-')` -/
def read_flag (fmt : List UInt8) : Bool × List UInt8 :=
  if fmt.head? = some '-'.toUInt8 then (true, fmt.tail) else (false, fmt)

/-- `fmt[i] >= '0' && fmt[i] <= '9'` -/
def is_digit (c : UInt8) : Bool := 48 ≤ c && c ≤ 57

/-- `while (fmt[i] >= '0' && fmt[i] <= '9')` -/
def read_width (width : ℕ) : List UInt8 → Except fault (ℕ × List UInt8)
  | [] => .ok (width, [])
  | c :: fmt =>
    if is_digit c then
      if width * 10 + (c.toNat - 48) < 2 ^ 31 then read_width (width * 10 + (c.toNat - 48)) fmt
      else .error .overflow
    else .ok (width, c :: fmt)

theorem read_flag_length (fmt : List UInt8) : (read_flag fmt).2.length ≤ fmt.length := by
  unfold read_flag
  split
  · exact fmt.length_tail.trans_le (Nat.sub_le _ _)
  · exact le_rfl

theorem read_width_length {width : ℕ} {fmt : List UInt8} {r : ℕ × List UInt8}
    (h : read_width width fmt = .ok r) : r.2.length ≤ fmt.length := by
  induction fmt generalizing width with
  | nil =>
      cases h
      exact le_rfl
  | cons c fmt ih =>
      unfold read_width at h
      split at h
      · split at h
        · exact (ih h).trans (Nat.le_succ _)
        · exact nomatch h
      · cases h
        exact le_rfl

/-- The loop from `fmt[i]` on. A conversion that is not finished is the default of the `switch`: the
NUL is written, and the loop goes on behind it. -/
def format (max_len : UInt64) (fmt out : List UInt8) (args : List arg) :
    Except fault (List UInt8 × List arg) :=
  match fmt with
  | [] => .ok (out, args)
  | c :: fmt =>
    if out.length < (max_len - 1).toNat then
      if c ≠ '%'.toUInt8 then (emit max_len out c).bind fun out => format max_len fmt out args
      else if fmt = [] then .ok (out, args)
      else
        match _hread : read_width 0 (read_flag fmt).2 with
        | .error e => .error e
        | .ok (_, []) => (emit max_len out 0).bind fun _ => .error .read
        | .ok (width, ch :: rest) =>
          (convert max_len (read_flag fmt).1 width out args (switch ch)).bind fun r =>
            format max_len rest r.1 r.2
    else .ok (out, args)
termination_by fmt.length
decreasing_by
  · exact Nat.lt_succ_self _
  · have hrest := read_width_length _hread
    have hflag := read_flag_length fmt
    simp only [List.length_cons] at hrest ⊢
    omega

/-- What has been written, the `int` that is returned, and the arguments that are left. -/
structure result where
  buf : List UInt8
  ret : ℤ
  args : List arg

/-- `buf` says whether there is a buffer. -/
def kvsnprintf (buf : Bool) (max_len : UInt64) (fmt : c_string) (args : List arg) :
    Except fault result :=
  if ¬ buf ∨ max_len = 0 then .ok ⟨[], 0, args⟩
  else
    (format max_len fmt.chars [] args).bind fun (out, args) =>
      (emit max_len out 0).map fun buf => ⟨buf, (out.length : ℤ).bmod (2 ^ 32), args⟩

/-! ## Numerals -/

/-- The number in digits, most significant first. -/
def numeral (base : ℕ) (uppercase : Bool) (n : ℕ) : List UInt8 :=
  (Nat.toDigits base n).map fun c => (if uppercase then c.toUpper else c).toUInt8

def signed_numeral (n : ℤ) : List UInt8 :=
  (if n < 0 then ['-'.toUInt8] else []) ++ numeral 10 false n.natAbs

theorem digits_eq (uppercase : Bool) {d : ℕ} (hd : d < 16) :
    digits uppercase d = (if uppercase then d.digitChar.toUpper else d.digitChar).toUInt8 := by
  have hall : ∀ b : Bool, ∀ d < 16,
      digits b d = (if b then d.digitChar.toUpper else d.digitChar).toUInt8 := by decide
  exact hall uppercase d hd

section Numerals

variable {base n : ℕ}

theorem push_digits_eq (hbase : 1 < base) (hbase' : base ≤ 16) (uppercase : Bool) (hn : 0 < n) :
    (push_digits base uppercase n).reverse = numeral base uppercase n := by
  induction n using Nat.strongRecOn with
  | _ n ih =>
      have hdigit : n % base < 16 := (Nat.mod_lt n (by omega)).trans_le hbase'
      rw [push_digits, if_pos ⟨hbase, hn⟩, List.reverse_cons, digits_eq uppercase hdigit, numeral,
        Nat.toDigits_eq_if hbase]
      by_cases hlt : n < base
      · -- the last digit
        rw [if_pos hlt, Nat.div_eq_of_lt hlt, Nat.mod_eq_of_lt hlt, push_digits,
          if_neg (fun h => lt_irrefl 0 h.2)]
        rfl
      · have hquot : 0 < n / base := Nat.div_pos (not_lt.mp hlt) (by omega)
        rw [if_neg hlt, ih _ (Nat.div_lt_self hn hbase) hquot, List.map_append, numeral]
        rfl

theorem numeral_zero (base : ℕ) (uppercase : Bool) : numeral base uppercase 0 = ['0'.toUInt8] := by
  rw [numeral, Nat.toDigits_zero]
  cases uppercase <;> decide

theorem fmt_number_unsigned (hbase : 1 < base) (hbase' : base ≤ 16) (uppercase : Bool)
    (val : UInt64) :
    fmt_number val base false uppercase = numeral base uppercase val.toNat := by
  simp only [fmt_number, Bool.false_and, Bool.false_eq_true, if_false, List.nil_append]
  by_cases hval : val = 0
  · rw [if_pos hval, hval]
    exact (numeral_zero base uppercase).symm
  · have hpos : 0 < val.toNat := by
      rw [Nat.pos_iff_ne_zero]
      exact fun h => hval (UInt64.toNat_inj.mp h)
    rw [if_neg hval, push_digits_eq hbase hbase' uppercase hpos]

theorem fmt_number_word (hbase : 1 < base) (hbase' : base ≤ 16) (uppercase : Bool) (w : UInt32) :
    fmt_number w.toUInt64 base false uppercase = numeral base uppercase w.toNat := by
  rw [fmt_number_unsigned hbase hbase', UInt32.toNat_toUInt64]

theorem sign_extend_toNat (w : UInt32) :
    w.toInt32.toInt = if 2 * (sign_extend w).toNat < 2 ^ 64 then ((sign_extend w).toNat : ℤ)
      else (sign_extend w).toNat - (2 ^ 64 : ℕ) := by
  rw [← Int32.toInt_toInt64]
  exact BitVec.toInt_eq_toNat_cond w.toInt32.toInt64.toBitVec

theorem sign_extend_neg_iff (w : UInt32) :
    (sign_extend w).toInt64 < 0 ↔ w.toInt32.toInt < 0 := by
  rw [sign_extend, Int64.toInt64_toUInt64, Int64.lt_iff_toInt_lt, Int32.toInt_toInt64,
    Int64.toInt_zero]

theorem fmt_number_signed (w : UInt32) :
    fmt_number (sign_extend w) 10 true false = signed_numeral w.toInt32.toInt := by
  have hnat := sign_extend_toNat w
  have hlt := (sign_extend w).toNat_lt
  have hunsigned : ∀ val, fmt_number val 10 false false = numeral 10 false val.toNat :=
    fmt_number_unsigned (by decide) (by decide) false
  by_cases hneg : w.toInt32.toInt < 0
  · -- the number that is left is the negated word
    have hval : (-sign_extend w).toNat = w.toInt32.toInt.natAbs := by
      rw [UInt64.toNat_neg]
      simp only [UInt64.size]
      split_ifs at hnat <;> omega
    have hsplit : fmt_number (sign_extend w) 10 true false
        = ['-'.toUInt8] ++ fmt_number (-sign_extend w) 10 false false := by
      simp only [fmt_number, Bool.true_and, Bool.false_and, (sign_extend_neg_iff w).mpr hneg,
        decide_true, if_true, Bool.false_eq_true, if_false, List.nil_append]
    rw [hsplit, hunsigned, hval, signed_numeral, if_pos hneg]
  · have hval : (sign_extend w).toNat = w.toInt32.toInt.natAbs := by
      split_ifs at hnat <;> omega
    have hsplit : fmt_number (sign_extend w) 10 true false
        = fmt_number (sign_extend w) 10 false false := by
      simp only [fmt_number, Bool.true_and, Bool.false_and, mt (sign_extend_neg_iff w).mp hneg,
        decide_false, Bool.false_eq_true, if_false]
    rw [hsplit, hunsigned, hval, signed_numeral, if_neg hneg, List.nil_append]

/-- A word and a pointer have few digits, so that their length is an `int`. -/
theorem numeral_length (hbase : 10 ≤ base) (hn : n < 2 ^ 64) (uppercase : Bool) :
    (numeral base uppercase n).length ≤ 20 := by
  rw [numeral, List.length_map, Nat.length_toDigits_le_iff (by omega) (by decide)]
  calc n < 2 ^ 64 := hn
    _ ≤ 10 ^ 20 := by decide
    _ ≤ base ^ 20 := Nat.pow_le_pow_left hbase 20

theorem numeral_length_pos (base : ℕ) (uppercase : Bool) (n : ℕ) :
    0 < (numeral base uppercase n).length := by
  rw [numeral, List.length_map]
  exact Nat.length_toDigits_pos

theorem signed_numeral_length (w : UInt32) : (signed_numeral w.toInt32.toInt).length ≤ 21 := by
  have hlow := w.toInt32.le_toInt
  have hhigh := w.toInt32.toInt_lt
  have hdigits := numeral_length (le_refl 10) (n := w.toInt32.toInt.natAbs) (by omega) false
  rw [signed_numeral, List.length_append]
  split
  · rw [List.length_singleton]
    omega
  · rw [List.length_nil]
    omega

end Numerals

end SysInC.Kprintf
