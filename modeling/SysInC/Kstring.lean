/-
The number conversions of `freestanding/kstring.c`.

`kitoa` takes the digits off the value from the low end, into an array, and writes them the other
way round. A parser that has read all but the last of them has the quotient of that division, so it
ends with the value; `int64_t` and `uint64_t` wrap alike, which makes `katoi` the same loop.
-/
import Mathlib.Algebra.Order.Ring.Nat
import Mathlib.Data.List.Basic
import Mathlib.Tactic.Common

set_option autoImplicit false

namespace SysInC.Kstring

/-! ## The source -/

def digits_lower : List UInt8 := [48, 49, 50, 51, 52, 53, 54, 55, 56, 57, 97, 98, 99, 100, 101, 102]

def digits_upper : List UInt8 := [48, 49, 50, 51, 52, 53, 54, 55, 56, 57, 65, 66, 67, 68, 69, 70]

/-- `while (uval > 0) { temp[temp_pos++] = digits[uval % base]; uval /= base; }`, with `room` for
what is left of `temp`. -/
def take_digits (digits : List UInt8) (base : UInt64) : ℕ → UInt64 → Option (List UInt8)
  | 0, uval => if uval = 0 then some [] else none
  | room + 1, uval =>
    if uval = 0 then some []
    else (digits[(uval % base).toNat]?).bind fun c =>
      (take_digits digits base room (uval / base)).map (c :: ·)

/-- What is written to `buf` in front of the NUL; nothing is when the base is not one. `none` is an
access that leaves an array. -/
def kitoa (val : Int64) (base : ℤ) (uppercase : Bool) : Option (List UInt8) :=
  let digits := if uppercase then digits_upper else digits_lower
  if base < 2 ∨ 16 < base then some []
  else
    let is_neg := decide (val < 0 ∧ base = 10)
    let val := if is_neg then -val else val
    let uval := val.toUInt64
    (if uval = 0 then some [48] else take_digits digits (UInt64.ofNat base.toNat) 68 uval).map
      fun temp => (if is_neg then [45] else []) ++ temp.reverse

/-- `while (*str == ' ' || *str == '\t' || *str == '\n') str++;` -/
def skip_spaces (str : List UInt8) : List UInt8 :=
  str.dropWhile fun c => c == 32 || c == 9 || c == 10

/-- `while (*str >= '0' && *str <= '9') { res = res * 10 + (*str - '0'); str++; }` -/
def katoi_loop (res : Int64) : List UInt8 → Int64
  | [] => res
  | c :: str =>
    if 48 ≤ c ∧ c ≤ 57 then katoi_loop (res * 10 + (c.toUInt64 - 48).toInt64) str else res

def katoi (str : List UInt8) : Int64 :=
  match skip_spaces str with
  | 45 :: str => katoi_loop 0 str * -1
  | 43 :: str => katoi_loop 0 str * 1
  | str => katoi_loop 0 str * 1

def digit_of (c : UInt8) : ℤ :=
  if 48 ≤ c ∧ c ≤ 57 then c.toNat - 48
  else if 97 ≤ c ∧ c ≤ 122 then c.toNat - 97 + 10
  else if 65 ≤ c ∧ c ≤ 90 then c.toNat - 65 + 10
  else -1

/-- The loop over the digits, with the string that it stops at. -/
def kstrtoul_loop (base : ℤ) (acc : UInt64) : List UInt8 → UInt64 × List UInt8
  | [] => (acc, [])
  | c :: str =>
    if digit_of c < 0 ∨ base ≤ digit_of c then (acc, c :: str)
    else kstrtoul_loop base (acc * UInt64.ofNat base.toNat + UInt64.ofNat (digit_of c).toNat) str

def is_x (c : Option UInt8) : Bool := c == some 120 || c == some 88

/-- The value, and the string behind `*endptr`. -/
def kstrtoul (str : List UInt8) (base : ℤ) : UInt64 × List UInt8 :=
  let str := skip_spaces str
  if base = 0 then
    if str[0]? = some 48 then
      if is_x str[1]? then kstrtoul_loop 16 0 (str.drop 2) else kstrtoul_loop 8 0 (str.drop 1)
    else kstrtoul_loop 10 0 str
  else if base = 16 ∧ str[0]? = some 48 ∧ is_x str[1]? then kstrtoul_loop base 0 (str.drop 2)
  else kstrtoul_loop base 0 str

/-! ## The digits of a value -/

section

variable {β : Type} {digits : List UInt8} {base : UInt64}

theorem quotient_lt {room : ℕ} {uval : UInt64} (hbase : 2 ≤ base.toNat)
    (h : uval.toNat < 2 ^ (room + 1)) : (uval / base).toNat < 2 ^ room := by
  rw [UInt64.toNat_div]
  refine Nat.div_lt_of_lt_mul (h.trans_le ?_)
  rw [pow_succ, Nat.mul_comm]
  exact Nat.mul_le_mul_right _ hbase

theorem quotient_mul_add (uval base : UInt64) : uval / base * base + uval % base = uval := by
  refine UInt64.toNat_inj.mp ?_
  rw [UInt64.toNat_add, UInt64.toNat_mul, UInt64.toNat_div, UInt64.toNat_mod, Nat.mod_add_mod,
    Nat.div_add_mod']
  exact Nat.mod_eq_of_lt uval.toNat_lt

/-- A parser that goes on from the value in front of a digit has the value at the end. -/
theorem take_digits_read (hbase : 2 ≤ base.toNat) (loop : UInt64 → List UInt8 → β)
    (hloop : ∀ d < base, ∃ c, digits[d.toNat]? = some c ∧
      ∀ acc rest, loop acc (c :: rest) = loop (acc * base + d) rest)
    {room : ℕ} {uval : UInt64} (h : uval.toNat < 2 ^ room) :
    ∃ ds, take_digits digits base room uval = some ds ∧ (∀ c ∈ ds, c ∈ digits) ∧
      ∀ rest, loop 0 (ds.reverse ++ rest) = loop uval rest := by
  induction room generalizing uval with
  | zero =>
    obtain rfl : uval = 0 := UInt64.toNat_inj.mp (Nat.lt_one_iff.mp h)
    exact ⟨[], rfl, fun c hc => absurd hc List.not_mem_nil, fun rest => rfl⟩
  | succ room ih =>
    by_cases hzero : uval = 0
    · subst hzero
      exact ⟨[], if_pos rfl, fun c hc => absurd hc List.not_mem_nil, fun rest => rfl⟩
    obtain ⟨ds, hds, hmem, hread⟩ := ih (quotient_lt hbase h)
    have hlt : uval % base < base := by
      rw [UInt64.lt_iff_toNat_lt, UInt64.toNat_mod]
      exact Nat.mod_lt _ (by omega)
    obtain ⟨c, hc, hgo⟩ := hloop _ hlt
    refine ⟨c :: ds, ?_, ?_, fun rest => ?_⟩
    · rw [take_digits, if_neg hzero, hc, Option.bind_some, hds, Option.map_some]
    · rw [List.forall_mem_cons]
      exact ⟨List.mem_of_getElem? hc, hmem⟩
    · rw [List.reverse_cons, List.append_assoc, List.singleton_append, hread, hgo,
        quotient_mul_add]

end

/-- The two cases of letters. -/
abbrev digits_of (uppercase : Bool) : List UInt8 := if uppercase then digits_upper else digits_lower

theorem digits_spec (uppercase : Bool) :
    ∀ d : ℕ, d < 16 → (digits_of uppercase)[d]? = some ((digits_of uppercase).getD d 0) ∧
      digit_of ((digits_of uppercase).getD d 0) = d ∧
      (d < 10 → ((digits_of uppercase).getD d 0).toNat = 48 + d) := by
  cases uppercase with
  | false => decide
  | true => decide

theorem digits_plain (uppercase : Bool) :
    ∀ c ∈ digits_of uppercase, (c == 32 || c == 9 || c == 10) = false ∧ c ≠ 45 ∧ c ≠ 43 ∧
      is_x (some c) = false := by
  cases uppercase with
  | false => decide +kernel
  | true => decide +kernel

/-- The same for what `kitoa` has in `temp`, which is `0` for the value 0. -/
theorem temp_read {β : Type} (uppercase : Bool) {base : UInt64} (hbase : 2 ≤ base.toNat)
    (loop : UInt64 → List UInt8 → β)
    (hloop : ∀ d < base, ∃ c, (digits_of uppercase)[d.toNat]? = some c ∧
      ∀ acc rest, loop acc (c :: rest) = loop (acc * base + d) rest) (uval : UInt64) :
    ∃ ds, (if uval = 0 then some [48]
        else take_digits (digits_of uppercase) base 68 uval) = some ds ∧
      (∀ c ∈ ds, c ∈ digits_of uppercase) ∧
      ∀ rest, loop 0 (ds.reverse ++ rest) = loop uval rest := by
  by_cases hzero : uval = 0
  · subst hzero
    have hpos : (0 : UInt64) < base :=
      UInt64.lt_iff_toNat_lt.mpr (Nat.lt_of_lt_of_le (by decide) hbase)
    obtain ⟨c, hc, hgo⟩ := hloop 0 hpos
    have hc' : c = 48 := by
      cases uppercase with
      | false => exact (Option.some.inj hc).symm
      | true => exact (Option.some.inj hc).symm
    subst hc'
    refine ⟨[48], if_pos rfl, fun c hc => ?_, fun rest => ?_⟩
    · rw [List.mem_singleton.mp hc]
      exact List.mem_of_getElem? ‹_›
    · have hsum : (0 : UInt64) * base + 0 = 0 := by rw [UInt64.zero_mul, UInt64.add_zero]
      rw [List.reverse_singleton, List.singleton_append, hgo, hsum]
  · have hlt : uval.toNat < 2 ^ 68 := uval.toNat_lt.trans (by decide)
    obtain ⟨ds, hds, hmem, hread⟩ := take_digits_read hbase loop hloop hlt
    exact ⟨ds, by rw [if_neg hzero, hds], hmem, hread⟩

/-! ## Round trips -/

section

variable {uppercase : Bool} {base : ℤ} {val : Int64}

/-- `kstrtoul` reads a digit. -/
theorem kstrtoul_read (hlo : 2 ≤ base) (hhi : base ≤ 16) :
    ∀ d < UInt64.ofNat base.toNat, ∃ c, (digits_of uppercase)[d.toNat]? = some c ∧
      ∀ acc rest, kstrtoul_loop base acc (c :: rest) =
        kstrtoul_loop base (acc * UInt64.ofNat base.toNat + d) rest := by
  intro d hd
  have hbase : (UInt64.ofNat base.toNat).toNat = base.toNat := by
    rw [UInt64.toNat_ofNat']
    exact Nat.mod_eq_of_lt (by omega)
  rw [UInt64.lt_iff_toNat_lt, hbase] at hd
  obtain ⟨hc, hdigit, -⟩ := digits_spec uppercase d.toNat (by omega)
  refine ⟨_, hc, fun acc rest => ?_⟩
  rw [kstrtoul_loop, hdigit, if_neg (by omega), Int.toNat_natCast, UInt64.ofNat_toNat]

/-- `katoi` reads a digit. -/
theorem katoi_read :
    ∀ d < (10 : UInt64), ∃ c, (digits_of uppercase)[d.toNat]? = some c ∧
      ∀ (acc : UInt64) rest, katoi_loop acc.toInt64 (c :: rest) =
        katoi_loop (acc * 10 + d).toInt64 rest := by
  intro d hd
  have hd' : d.toNat < 10 := UInt64.lt_iff_toNat_lt.mp hd
  obtain ⟨hc, -, hvalue⟩ := digits_spec uppercase d.toNat (by omega)
  generalize (digits_of uppercase).getD d.toNat 0 = c at hc hvalue
  have hc' : c.toNat = 48 + d.toNat := hvalue hd'
  refine ⟨c, hc, fun acc rest => ?_⟩
  have hrange : 48 ≤ c ∧ c ≤ 57 := by
    rw [UInt8.le_iff_toNat_le, UInt8.le_iff_toNat_le, hc']
    have h48 : (48 : UInt8).toNat = 48 := rfl
    have h57 : (57 : UInt8).toNat = 57 := rfl
    omega
  have hsub : c.toUInt64 - 48 = d := by
    refine UInt64.toNat_inj.mp ?_
    have h48 : (48 : UInt64).toNat = 48 := rfl
    rw [UInt64.toNat_sub_of_le]
    · rw [UInt8.toNat_toUInt64, hc', h48]
      omega
    · rw [UInt64.le_iff_toNat_le, UInt8.toNat_toUInt64, hc', h48]
      omega
  rw [katoi_loop, if_pos hrange, hsub]
  rfl

theorem skip_digits {str : List UInt8} (h : ∀ c ∈ str, c ∈ digits_of uppercase) :
    skip_spaces str = str := by
  cases str with
  | nil => rfl
  | cons c str =>
    have hc := (digits_plain uppercase c (h c List.mem_cons_self)).1
    exact List.dropWhile_cons_of_neg (by rw [hc]; exact Bool.false_ne_true)

theorem kstrtoul_digits {str : List UInt8} (hlo : 2 ≤ base)
    (h : ∀ c ∈ str, c ∈ digits_of uppercase) : kstrtoul str base = kstrtoul_loop base 0 str := by
  have hx : is_x str[1]? = false := by
    cases hget : str[1]? with
    | none => rfl
    | some c => exact (digits_plain uppercase c (h c (List.mem_of_getElem? hget))).2.2.2
  unfold kstrtoul
  dsimp only
  rw [skip_digits h, if_neg (by omega), hx, if_neg]
  rintro ⟨-, -, hnot⟩
  exact Bool.false_ne_true hnot

theorem katoi_digits {str : List UInt8} (h : ∀ c ∈ str, c ∈ digits_of uppercase) :
    katoi str = katoi_loop 0 str := by
  unfold katoi
  rw [skip_digits h]
  split
  · exact absurd rfl (digits_plain uppercase 45 (h 45 List.mem_cons_self)).2.1
  · exact absurd rfl (digits_plain uppercase 43 (h 43 List.mem_cons_self)).2.2.1
  · exact Int64.mul_one _

/-- **Number conversions.** What `kitoa` writes, `katoi` reads in base 10 and `kstrtoul` in every
base, up to the terminator. -/
theorem kitoa_read (val : Int64) (uppercase : Bool) :
    (∃ str, kitoa val 10 uppercase = some str ∧ katoi str = val) ∧
      ∀ base : ℤ, 2 ≤ base → base ≤ 16 → 0 ≤ val ∨ base ≠ 10 →
        ∃ str, kitoa val base uppercase = some str ∧ kstrtoul str base = (val.toUInt64, []) := by
  constructor
  · by_cases hneg : val < 0
    · obtain ⟨ds, hds, -, hread⟩ := temp_read uppercase (by decide)
        (fun acc => katoi_loop acc.toInt64) katoi_read (-val).toUInt64
      refine ⟨45 :: ds.reverse, ?_, ?_⟩
      · unfold kitoa
        dsimp only
        rw [if_neg (by decide), decide_eq_true ⟨hneg, rfl⟩, if_pos rfl]
        exact congrArg (Option.map _) hds
      · have hloop := hread []
        rw [List.append_nil] at hloop
        show katoi_loop (0 : UInt64).toInt64 ds.reverse * -1 = val
        rw [hloop]
        show -val * -1 = val
        rw [Int64.mul_neg, Int64.mul_one, Int64.neg_neg]
    · obtain ⟨ds, hds, hmem, hread⟩ := temp_read uppercase (by decide)
        (fun acc => katoi_loop acc.toInt64) katoi_read val.toUInt64
      refine ⟨ds.reverse, ?_, ?_⟩
      · unfold kitoa
        dsimp only
        rw [if_neg (by decide), decide_eq_false (fun h => hneg h.1), if_neg Bool.false_ne_true]
        exact (congrArg (Option.map _) hds).trans rfl
      · have hloop := hread []
        rw [List.append_nil] at hloop
        rw [katoi_digits fun c hc => hmem c (List.mem_reverse.mp hc)]
        exact hloop
  · intro base hlo hhi hsign
    have hbase : 2 ≤ (UInt64.ofNat base.toNat).toNat := by
      rw [UInt64.toNat_ofNat']
      omega
    obtain ⟨ds, hds, hmem, hread⟩ := temp_read uppercase hbase
      (kstrtoul_loop base) (kstrtoul_read hlo hhi) val.toUInt64
    refine ⟨ds.reverse, ?_, ?_⟩
    · have hnot : ¬ (val < 0 ∧ base = 10) := by
        rintro ⟨hneg, hten⟩
        obtain hpos | hne := hsign
        · exact Int64.not_lt.mpr hpos hneg
        · exact hne hten
      unfold kitoa
      dsimp only
      rw [if_neg (by omega), decide_eq_false hnot, if_neg Bool.false_ne_true]
      exact (congrArg (Option.map _) hds).trans rfl
    · have hloop := hread []
      rw [List.append_nil] at hloop
      rw [kstrtoul_digits hlo fun c hc => hmem c (List.mem_reverse.mp hc), hloop]
      rfl

/-- -255 in base 16. -/
theorem kitoa_read_hex :
    ∃ str, kitoa (-255) 16 true = some str ∧ kstrtoul str 16 = ((-255 : Int64).toUInt64, []) :=
  (kitoa_read (-255) true).2 16 (by decide) (by decide) (Or.inr (by decide))

end

end SysInC.Kstring
