/-
`freestanding/kdiv64.c`, the division of 64 bits that the compiler calls for on 32 bits.

With the bits from `i` on fetched, `rem` is the remainder of those bits and at most as large as the
number they are. The bit `i` is still to come, so that number is below `2 ^ 63`, and the shift
of `rem` loses nothing, whatever the divisor.
-/
import Mathlib.Algebra.Order.Ring.Nat
import Mathlib.Tactic.Linarith
import Mathlib.Tactic.Ring

set_option autoImplicit false

namespace SysInC.Kdiv64

/-! ## The source -/

structure state where
  quot : UInt64
  rem : UInt64

def turn (num den : UInt64) (i : ℕ) (s : state) : state :=
  let rem := (s.rem <<< 1) ||| ((num >>> UInt64.ofNat i) &&& 1)
  if den ≤ rem then ⟨s.quot ||| (1 <<< UInt64.ofNat i), rem - den⟩ else ⟨s.quot, rem⟩

/-- `for (int i = 63; i >= 0; i--)`, from an `i` on that is one less than the number here. -/
def loop (num den : UInt64) : ℕ → state → state
  | 0, s => s
  | i + 1, s => loop num den i (turn num den i s)

/-- What is returned, and what is stored through `rem_p`. -/
def udivmoddi4 (num den : UInt64) : state :=
  if den = 0 then ⟨0, 0⟩ else loop num den 64 ⟨0, 0⟩

/-- `ua` and `ub`: the value without its sign. -/
def magnitude (a : Int64) : UInt64 := if a < 0 then (-(a + 1)).toUInt64 + 1 else a.toUInt64

/-- `neg ? -(int64_t)res : (int64_t)res`, where the negation wraps. -/
def signed (neg : Bool) (res : UInt64) : Int64 := if neg then -res.toInt64 else res.toInt64

def divdi3 (a b : Int64) : Int64 :=
  signed (decide (a < 0) ^^ decide (b < 0)) (udivmoddi4 (magnitude a) (magnitude b)).quot

def moddi3 (a b : Int64) : Int64 :=
  signed (decide (a < 0)) (udivmoddi4 (magnitude a) (magnitude b)).rem

def udivdi3 (a b : UInt64) : UInt64 := (udivmoddi4 a b).quot

def umoddi3 (a b : UInt64) : UInt64 := (udivmoddi4 a b).rem

/-! ## One more bit -/

section Arithmetic

variable {N d b : ℕ}

theorem div_mod_bit_ge (hd : 0 < d) (hb : b < 2) (h : d ≤ 2 * (N % d) + b) :
    (2 * N + b) / d = 2 * (N / d) + 1 ∧ (2 * N + b) % d = 2 * (N % d) + b - d := by
  have hmod : N % d < d := Nat.mod_lt N hd
  refine (Nat.div_mod_unique hd).mpr ⟨?_, by omega⟩
  have hsplit : d * (N / d) + N % d = N := Nat.div_add_mod N d
  have hmul : d * (2 * (N / d) + 1) = 2 * (d * (N / d)) + d := by ring
  omega

theorem div_mod_bit_lt (hd : 0 < d) (h : 2 * (N % d) + b < d) :
    (2 * N + b) / d = 2 * (N / d) ∧ (2 * N + b) % d = 2 * (N % d) + b := by
  refine (Nat.div_mod_unique hd).mpr ⟨?_, h⟩
  have hsplit : d * (N / d) + N % d = N := Nat.div_add_mod N d
  have hmul : d * (2 * (N / d)) = 2 * (d * (N / d)) := by ring
  omega

/-- The bits from `i` on are those behind it and bit `i`. -/
theorem div_two_pow (n i : ℕ) : n / 2 ^ i = 2 * (n / 2 ^ (i + 1)) + n / 2 ^ i % 2 := by
  rw [pow_succ, ← Nat.div_div_eq_div_mul]
  exact (Nat.div_add_mod _ 2).symm

end Arithmetic

/-! ## Words -/

theorem toNat_ofNat {i : ℕ} (hi : i < 64) : (UInt64.ofNat i).toNat % 64 = i := by
  have hsize : i < 2 ^ 64 := hi.trans (by decide)
  rw [UInt64.toNat_ofNat_of_lt' hsize, Nat.mod_eq_of_lt hi]

theorem toNat_bit (num : UInt64) {i : ℕ} (hi : i < 64) :
    ((num >>> UInt64.ofNat i) &&& 1).toNat = num.toNat / 2 ^ i % 2 := by
  rw [UInt64.toNat_and, UInt64.toNat_shiftRight, toNat_ofNat hi, Nat.shiftRight_eq_div_pow]
  exact Nat.and_one_is_mod _

theorem toNat_power {i : ℕ} (hi : i < 64) : ((1 : UInt64) <<< UInt64.ofNat i).toNat = 2 ^ i := by
  have hpow : 2 ^ i < 2 ^ 64 := Nat.pow_lt_pow_right (by decide) hi
  rw [UInt64.toNat_shiftLeft, toNat_ofNat hi]
  change 1 <<< i % 2 ^ 64 = 2 ^ i
  rw [Nat.shiftLeft_eq, one_mul, Nat.mod_eq_of_lt hpow]

/-- The shift loses no bit of a word below `2 ^ 63`. -/
theorem toNat_shift {rem bit : UInt64} (hrem : rem.toNat < 2 ^ 63) (hbit : bit.toNat < 2) :
    ((rem <<< 1) ||| bit).toNat = 2 * rem.toNat + bit.toNat := by
  have hshift : (rem <<< 1).toNat = rem.toNat <<< 1 := by
    rw [UInt64.toNat_shiftLeft]
    change rem.toNat <<< 1 % 2 ^ 64 = _
    rw [Nat.shiftLeft_eq]
    omega
  rw [UInt64.toNat_or, hshift, ← Nat.shiftLeft_add_eq_or_of_lt hbit, Nat.shiftLeft_eq]
  omega

theorem toNat_set {quot : UInt64} {q i : ℕ} (hi : i < 64) (hquot : quot.toNat = q * 2 ^ (i + 1)) :
    (quot ||| (1 <<< UInt64.ofNat i)).toNat = (2 * q + 1) * 2 ^ i := by
  have hlow : 2 ^ i < 2 ^ (i + 1) := Nat.pow_lt_pow_right (by decide) (Nat.lt_succ_self i)
  rw [UInt64.toNat_or, toNat_power hi, hquot, ← Nat.shiftLeft_eq,
    ← Nat.shiftLeft_add_eq_or_of_lt hlow, Nat.shiftLeft_eq, pow_succ]
  ring

/-! ## A turn -/

/-- The bits from `k` on are divided. -/
structure Inv (num den : UInt64) (k : ℕ) (s : state) : Prop where
  quot_eq : s.quot.toNat = num.toNat / 2 ^ k / den.toNat * 2 ^ k
  rem_eq : s.rem.toNat = num.toNat / 2 ^ k % den.toNat

section Turn

variable {num den : UInt64} {i : ℕ} {s : state}

/-- A bit is still to come, so the remainder can be shifted. -/
theorem Inv.rem_lt (h : Inv num den (i + 1) s) : s.rem.toNat < 2 ^ 63 := by
  have hnum : num.toNat < 2 ^ 64 := num.toNat_lt
  have htwo : 2 ^ 1 ≤ 2 ^ (i + 1) := Nat.pow_le_pow_right (by decide) (Nat.succ_pos i)
  calc s.rem.toNat = num.toNat / 2 ^ (i + 1) % den.toNat := h.rem_eq
    _ ≤ num.toNat / 2 ^ (i + 1) := Nat.mod_le _ _
    _ ≤ num.toNat / 2 ^ 1 := Nat.div_le_div_left htwo (by decide)
    _ < 2 ^ 63 := by omega

theorem Inv.turn (h : Inv num den (i + 1) s) (hden : 0 < den.toNat) (hi : i < 64) :
    Inv num den i (turn num den i s) := by
  have hbit : ((num >>> UInt64.ofNat i) &&& 1).toNat < 2 := by
    rw [toNat_bit num hi]
    exact Nat.mod_lt _ (by decide)
  have hnext := toNat_shift h.rem_lt hbit
  rw [h.rem_eq, toNat_bit num hi] at hnext
  have hfetch := div_two_pow num.toNat i
  unfold Kdiv64.turn
  by_cases hle : den ≤ (s.rem <<< 1) ||| ((num >>> UInt64.ofNat i) &&& 1)
  · have hge := UInt64.le_iff_toNat_le.mp hle
    rw [hnext] at hge
    obtain ⟨hquot, hrem⟩ := div_mod_bit_ge hden (Nat.mod_lt _ (by decide)) hge
    rw [← hfetch] at hquot hrem
    rw [if_pos hle]
    refine ⟨?_, ?_⟩
    · rw [toNat_set hi h.quot_eq, hquot]
    · rw [UInt64.toNat_sub_of_le _ _ hle, hnext, hrem]
  · have hlt := UInt64.lt_iff_toNat_lt.mp (UInt64.not_le.mp hle)
    rw [hnext] at hlt
    obtain ⟨hquot, hrem⟩ := div_mod_bit_lt hden hlt
    rw [← hfetch] at hquot hrem
    rw [if_neg hle]
    refine ⟨?_, ?_⟩
    · rw [hquot, h.quot_eq, pow_succ]
      ring
    · rw [hnext, hrem]

theorem Inv.loop (hden : 0 < den.toNat) {k : ℕ} (hk : k ≤ 64) {s : state} (h : Inv num den k s) :
    Inv num den 0 (loop num den k s) := by
  induction k generalizing s with
  | zero => exact h
  | succ i ih => exact ih (Nat.le_of_succ_le hk) (h.turn hden hk)

theorem Inv.start (num den : UInt64) : Inv num den 64 ⟨0, 0⟩ := by
  have hnum : num.toNat / 2 ^ 64 = 0 := Nat.div_eq_of_lt num.toNat_lt
  exact ⟨by rw [hnum, Nat.zero_div, zero_mul]; rfl, by rw [hnum, Nat.zero_mod]; rfl⟩

end Turn

/-- The quotient and the remainder of words are those of the numbers. -/
theorem toNat_udivmoddi4 (num : UInt64) {den : UInt64} (hden : den ≠ 0) :
    (udivmoddi4 num den).quot.toNat = num.toNat / den.toNat
      ∧ (udivmoddi4 num den).rem.toNat = num.toNat % den.toNat := by
  have hpos : 0 < den.toNat := Nat.pos_of_ne_zero fun h => hden (UInt64.toNat_inj.mp h)
  have hinv := Inv.loop hpos le_rfl (Inv.start num den)
  unfold udivmoddi4
  rw [if_neg hden, hinv.quot_eq, hinv.rem_eq, pow_zero, Nat.div_one, mul_one]
  exact ⟨rfl, rfl⟩

/-! ## Signs -/

theorem toNat_toUInt64 {a : Int64} (h : 0 ≤ a.toInt) : (a.toUInt64.toNat : ℤ) = a.toInt := by
  have ha : 0 ≤ a := Int64.le_iff_toInt_le.mpr h
  rw [Int64.toNat_toUInt64_of_le ha, Int64.cast_toNatClampNeg a ha]

/-- Neither `a + 1` nor its negation overflows where `a` is negative, and the last sum is at most
`2 ^ 63`. -/
theorem toNat_magnitude (a : Int64) : (magnitude a).toNat = a.toInt.natAbs := by
  have hmin : -2 ^ 63 ≤ a.toInt := a.le_toInt
  unfold magnitude
  by_cases ha : a < 0
  · have hneg : a.toInt < 0 := Int64.lt_iff_toInt_lt.mp ha
    have hsum : (a + 1).toInt = a.toInt + 1 := by
      rw [Int64.toInt_add]
      exact Int.bmod_eq_of_le (by change _ ≤ a.toInt + 1; omega) (by change a.toInt + 1 < _; omega)
    have hopp : (-(a + 1)).toInt = -(a.toInt + 1) := by
      rw [Int64.toInt_neg, hsum]
      exact Int.bmod_eq_of_le (by omega) (by omega)
    have hword := toNat_toUInt64 (a := -(a + 1)) (by omega)
    rw [if_pos ha, UInt64.toNat_add]
    change ((-(a + 1)).toUInt64.toNat + 1) % 2 ^ 64 = _
    omega
  · have hpos : 0 ≤ a.toInt := Int64.le_iff_toInt_le.mp (Int64.not_lt.mp ha)
    have hword := toNat_toUInt64 hpos
    rw [if_neg ha]
    omega

theorem toInt_toInt64 {res : UInt64} (h : res.toNat < 2 ^ 63) : res.toInt64.toInt = res.toNat := by
  rw [← UInt64.ofNat_toNat (x := res), UInt64.toInt64_ofNat', Int64.toInt_ofNat_of_lt (by simpa)]
  simp

/-- The negation overflows at `2 ^ 63` only, and there it gives the value asked for. -/
theorem toInt_neg_toInt64 {res : UInt64} (h : res.toNat ≤ 2 ^ 63) :
    (-res.toInt64).toInt = -res.toNat := by
  rw [← UInt64.ofNat_toNat (x := res), UInt64.toInt64_ofNat',
    Int64.toInt_neg_ofNat_of_le (by simpa)]
  simp

theorem toInt_signed {neg : Bool} {res : UInt64} (hle : res.toNat ≤ 2 ^ 63)
    (hlt : neg = false → res.toNat < 2 ^ 63) :
    (signed neg res).toInt = if neg then -(res.toNat : ℤ) else res.toNat := by
  unfold signed
  cases neg with
  | true => exact toInt_neg_toInt64 hle
  | false => exact toInt_toInt64 (hlt rfl)

theorem tdiv_natAbs (a b : ℤ) :
    a.tdiv b = if (decide (a < 0) ^^ decide (b < 0)) = true then -((a.natAbs / b.natAbs : ℕ) : ℤ)
      else ((a.natAbs / b.natAbs : ℕ) : ℤ) := by
  have hdiv : (a.natAbs : ℤ).tdiv b.natAbs = ((a.natAbs / b.natAbs : ℕ) : ℤ) := rfl
  rw [← hdiv]
  rcases lt_or_ge a 0 with ha | ha <;> rcases lt_or_ge b 0 with hb | hb
  · simp [ha, hb, Int.ofNat_natAbs_of_nonpos ha.le, Int.ofNat_natAbs_of_nonpos hb.le]
  · simp [ha, hb.not_gt, Int.ofNat_natAbs_of_nonpos ha.le, Int.natAbs_of_nonneg hb]
  · simp [ha.not_gt, hb, Int.natAbs_of_nonneg ha, Int.ofNat_natAbs_of_nonpos hb.le]
  · simp [ha.not_gt, hb.not_gt, Int.natAbs_of_nonneg ha, Int.natAbs_of_nonneg hb]

theorem tmod_natAbs (a b : ℤ) :
    a.tmod b = if decide (a < 0) = true then -((a.natAbs % b.natAbs : ℕ) : ℤ)
      else ((a.natAbs % b.natAbs : ℕ) : ℤ) := by
  have hmod : (a.natAbs : ℤ).tmod b.natAbs = ((a.natAbs % b.natAbs : ℕ) : ℤ) := rfl
  rw [← hmod]
  rcases lt_or_ge a 0 with ha | ha <;> rcases lt_or_ge b 0 with hb | hb
  · simp [ha, Int.ofNat_natAbs_of_nonpos ha.le, Int.ofNat_natAbs_of_nonpos hb.le]
  · simp [ha, Int.ofNat_natAbs_of_nonpos ha.le, Int.natAbs_of_nonneg hb]
  · simp [ha.not_gt, Int.natAbs_of_nonneg ha, Int.ofNat_natAbs_of_nonpos hb.le]
  · simp [ha.not_gt, Int.natAbs_of_nonneg ha, Int.natAbs_of_nonneg hb]

section Signs

variable {a b : Int64}

theorem decide_neg (a : Int64) : decide (a < 0) = decide (a.toInt < 0) :=
  decide_eq_decide.mpr Int64.lt_iff_toInt_lt

theorem natAbs_le (a : Int64) : a.toInt.natAbs ≤ 2 ^ 63 := by
  have hmin : -2 ^ 63 ≤ a.toInt := a.le_toInt
  have hmax : a.toInt < 2 ^ 63 := a.toInt_lt
  omega

theorem magnitude_ne_zero (hb : b ≠ 0) : magnitude b ≠ 0 := by
  intro h
  refine hb (Int64.toInt_inj.mp (Int.natAbs_eq_zero.mp ?_))
  rw [← toNat_magnitude, h]
  rfl

/-- The quotient of the magnitudes reaches `2 ^ 63` for the least dividend only. -/
theorem quotient_lt (h : ¬(a = Int64.minValue ∧ b = -1))
    (hneg : (decide (a.toInt < 0) ^^ decide (b.toInt < 0)) = false) :
    a.toInt.natAbs / b.toInt.natAbs < 2 ^ 63 := by
  have hle : a.toInt.natAbs / b.toInt.natAbs ≤ a.toInt.natAbs := Nat.div_le_self _ _
  by_cases ha : a.toInt = -2 ^ 63
  · have hmin : a = Int64.minValue := Int64.toInt_inj.mp (ha.trans Int64.toInt_minValue.symm)
    have hb : b.toInt ≠ -1 := fun hb => h ⟨hmin, Int64.toInt_inj.mp hb⟩
    have hsign : b.toInt < 0 := by
      simpa [ha] using hneg
    rw [Nat.div_lt_iff_lt_mul (by omega)]
    omega
  · have hmin : -2 ^ 63 ≤ a.toInt := a.le_toInt
    have hmax : a.toInt < 2 ^ 63 := a.toInt_lt
    omega

theorem toInt_divdi3 (hb : b ≠ 0) (h : ¬(a = Int64.minValue ∧ b = -1)) :
    (divdi3 a b).toInt = a.toInt.tdiv b.toInt := by
  have hquot := (toNat_udivmoddi4 (magnitude a) (magnitude_ne_zero hb)).1
  rw [toNat_magnitude, toNat_magnitude] at hquot
  have hle : a.toInt.natAbs / b.toInt.natAbs ≤ 2 ^ 63 :=
    (Nat.div_le_self _ _).trans (natAbs_le a)
  unfold divdi3
  rw [decide_neg a, decide_neg b,
    toInt_signed (hquot ▸ hle) fun hneg => hquot ▸ quotient_lt h hneg, hquot, tdiv_natAbs]

theorem toInt_moddi3 (hb : b ≠ 0) : (moddi3 a b).toInt = a.toInt.tmod b.toInt := by
  have hrem := (toNat_udivmoddi4 (magnitude a) (magnitude_ne_zero hb)).2
  rw [toNat_magnitude, toNat_magnitude] at hrem
  have hpos : 0 < b.toInt.natAbs :=
    Int.natAbs_pos.mpr fun h => hb (Int64.toInt_inj.mp h)
  have hlt : a.toInt.natAbs % b.toInt.natAbs < 2 ^ 63 :=
    (Nat.mod_lt _ hpos).trans_le (natAbs_le b)
  unfold moddi3
  rw [decide_neg a, toInt_signed (hrem ▸ hlt.le) fun _ => hrem ▸ hlt, hrem, tmod_natAbs]

/-- What is negated is `INT64_MIN`, so that C leaves the negation undefined, for one quotient. -/
theorem toInt64_eq_minValue (hb : b ≠ 0)
    (hneg : (decide (a.toInt < 0) ^^ decide (b.toInt < 0)) = true) :
    (udivmoddi4 (magnitude a) (magnitude b)).quot.toNat = 2 ^ 63
      ↔ a = Int64.minValue ∧ b = 1 := by
  have hone : (1 : Int64).toInt = 1 := rfl
  have hb0 : b.toInt ≠ 0 := fun h => hb (Int64.toInt_inj.mp h)
  have hmin := Int64.toInt_minValue
  rw [(toNat_udivmoddi4 (magnitude a) (magnitude_ne_zero hb)).1, toNat_magnitude, toNat_magnitude,
    ← Int64.toInt_inj, ← Int64.toInt_inj, hmin, hone]
  have hle := natAbs_le a
  constructor
  · intro hquot
    have hmul : 2 ^ 63 * b.toInt.natAbs ≤ a.toInt.natAbs := hquot ▸ Nat.div_mul_le_self _ _
    have hunit : b.toInt.natAbs = 1 := by omega
    have hmax : a.toInt < 2 ^ 63 := a.toInt_lt
    have ha : a.toInt = -2 ^ 63 := by omega
    have hpos : ¬b.toInt < 0 := by simpa [ha] using hneg
    exact ⟨ha, by omega⟩
  · rintro ⟨ha, hunit⟩
    rw [ha, hunit]
    rfl

end Signs

/-- The division of words is that of the numbers, and the signed division truncates. -/
theorem division_spec :
    (∀ num den : UInt64, den ≠ 0 →
      num.toNat = (udivmoddi4 num den).quot.toNat * den.toNat + (udivmoddi4 num den).rem.toNat
        ∧ (udivmoddi4 num den).rem < den)
    ∧ ∀ a b : Int64, b ≠ 0 → ¬(a = Int64.minValue ∧ b = -1) →
      (divdi3 a b).toInt = a.toInt.tdiv b.toInt
        ∧ (moddi3 a b).toInt = a.toInt.tmod b.toInt
        ∧ a.toInt = (divdi3 a b).toInt * b.toInt + (moddi3 a b).toInt := by
  refine ⟨fun num den hden => ?_, fun a b hb h => ?_⟩
  · have hpos : 0 < den.toNat := Nat.pos_of_ne_zero fun h => hden (UInt64.toNat_inj.mp h)
    obtain ⟨hquot, hrem⟩ := toNat_udivmoddi4 num hden
    rw [UInt64.lt_iff_toNat_lt, hquot, hrem]
    exact ⟨(Nat.div_add_mod' _ _).symm, Nat.mod_lt _ hpos⟩
  · rw [toInt_divdi3 hb h, toInt_moddi3 hb]
    exact ⟨rfl, rfl, (Int.tdiv_mul_add_tmod _ _).symm⟩

theorem division_spec_seven :
    (udivmoddi4 7 2).rem < 2 ∧ (divdi3 (-7) 2).toInt = -3 ∧ (moddi3 (-7) 2).toInt = -1 := by
  obtain ⟨hquot, hrem, -⟩ := division_spec.2 (-7) 2 (by decide) (by decide)
  exact ⟨(division_spec.1 7 2 (by decide)).2, hquot.trans (by decide), hrem.trans (by decide)⟩

end SysInC.Kdiv64
