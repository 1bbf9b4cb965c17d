/-
The Reed-Solomon encoder of `src/qrcli/qrcli.c`: the data and the bytes that `rs_encode` computes
behind them are a word of the code, which is zero at the powers of the element that the tables of
`gf_init` are made of.

A byte is read as an element of the field, the sum of the powers that its bits stand for. The two
loops that work in place, that of `rs_gen_poly` from the highest index down and that of `rs_encode`
from the lowest up, are then a product with one more factor and one step of a register.
-/
import SysInC.CyclicCode
import SysInC.Qr
import Mathlib.Algebra.CharP.Algebra
import Mathlib.Algebra.Field.ZMod
import Mathlib.Data.Nat.Bitwise
import Mathlib.Dynamics.PeriodicPts.Defs
import Mathlib.RingTheory.AdjoinRoot
import Mathlib.Tactic.ComputeDegree

set_option autoImplicit false

namespace SysInC.Qr

open CyclicCode Finset Function

/-! ## The powers of two -/

/-- A turn of the loop of `gf_init`, for the power alone. -/
def double (x : ℕ) : ℕ :=
  if x <<< 1 &&& 0x100 ≠ 0 then x <<< 1 ^^^ 0x11D else x <<< 1

def power (i : ℕ) : ℕ := double^[i] 1

theorem power_succ (i : ℕ) : power (i + 1) = double (power i) := iterate_succ_apply' double i 1

theorem and_top_ne_zero (x : ℕ) : x &&& 0x100 ≠ 0 ↔ x.testBit 8 = true := by
  rw [show 0x100 = 2 ^ 8 from rfl, Nat.and_two_pow]
  cases x.testBit 8 <;> decide

theorem testBit_shift (x i : ℕ) : (x <<< 1).testBit (i + 1) = x.testBit i := by
  rw [Nat.testBit_shiftLeft, Nat.add_sub_cancel, decide_eq_true (Nat.le_add_left 1 i),
    Bool.true_and]

theorem double_lt {x : ℕ} (h : x < 256) : double x < 256 := by
  have hhigh : ∀ i, 8 ≤ i → x.testBit i = false := fun i hi =>
    Nat.testBit_lt_two_pow (h.trans_le (Nat.pow_le_pow_right Nat.zero_lt_two hi))
  refine Nat.lt_pow_two_of_testBit (n := 8) _ fun i hi => ?_
  obtain ⟨i, rfl⟩ : ∃ j, i = j + 1 := ⟨i - 1, by omega⟩
  unfold double
  split
  · rename_i htop
    rw [and_top_ne_zero, testBit_shift] at htop
    rw [Nat.testBit_xor, testBit_shift]
    obtain rfl | hlt := (Nat.le_of_succ_le_succ hi).eq_or_lt
    · rw [htop]
      decide
    · rw [hhigh i hlt, Bool.false_xor]
      have hwide : 2 ^ 9 ≤ 2 ^ (i + 1) := Nat.pow_le_pow_right Nat.zero_lt_two (by omega)
      exact Nat.testBit_lt_two_pow ((by decide : 0x11D < 2 ^ 9).trans_le hwide)
  · rename_i htop
    rw [and_top_ne_zero, testBit_shift] at htop
    rw [testBit_shift]
    obtain rfl | hlt := (Nat.le_of_succ_le_succ hi).eq_or_lt
    · exact Bool.eq_false_iff.mpr htop
    · exact hhigh i hlt

theorem double_pos {x : ℕ} (h : 0 < x) : 0 < double x := by
  unfold double
  split
  · refine Nat.pos_of_ne_zero fun hzero => ?_
    have hlow : (x <<< 1 ^^^ 0x11D).testBit 0 = true := by
      rw [Nat.testBit_xor, Nat.testBit_shiftLeft]
      rfl
    rw [hzero, Nat.zero_testBit] at hlow
    exact Bool.false_ne_true hlow
  · rw [Nat.shiftLeft_eq]
    exact Nat.mul_pos h Nat.zero_lt_two

theorem power_byte (i : ℕ) : 0 < power i ∧ power i < 256 := by
  induction i with
  | zero => decide
  | succ i ih =>
    rw [power_succ]
    exact ⟨double_pos ih.1, double_lt ih.2⟩

/-- The powers come back to 1 after 255 turns, and not before: not after 85, 51 or 15. -/
theorem minimalPeriod_double : minimalPeriod double 1 = 255 := by
  have hdvd : minimalPeriod double 1 ∣ 255 := IsPeriodicPt.minimalPeriod_dvd (by decide +kernel)
  have hnot : ∀ n, double^[n] 1 ≠ 1 → ¬ minimalPeriod double 1 ∣ n := fun n hn hd =>
    hn ((isPeriodicPt_minimalPeriod double 1).trans_dvd hd)
  have h85 := hnot 85 (by decide +kernel)
  have h51 := hnot 51 (by decide +kernel)
  have h15 := hnot 15 (by decide)
  have hfactors : ∀ d ∈ Nat.divisors 255, ¬ d ∣ 85 → ¬ d ∣ 51 → ¬ d ∣ 15 → d = 255 := by
    decide +kernel
  exact hfactors _ (Nat.mem_divisors.mpr ⟨hdvd, by decide⟩) h85 h51 h15

theorem power_injOn {i j : ℕ} (hi : i < 255) (hj : j < 255) (h : power i = power j) : i = j :=
  iterate_injOn_Iio_minimalPeriod (minimalPeriod_double.symm ▸ hi : i ∈ Set.Iio _)
    (minimalPeriod_double.symm ▸ hj : j ∈ Set.Iio _) h

/-- Every byte but 0 is a power. -/
theorem exists_power {a : ℕ} (hpos : 0 < a) (hlt : a < 256) : ∃ i < 255, power i = a := by
  have hmaps : Set.MapsTo power (range 255) (Ico 1 256) := fun i _ =>
    mem_coe.mpr (mem_Ico.mpr (power_byte i))
  have hinj : Set.InjOn power (range 255 : Finset ℕ) := fun i hi j hj h =>
    power_injOn (mem_range.mp hi) (mem_range.mp hj) h
  have hcard : (Ico 1 256).card ≤ (range 255).card := by rw [Nat.card_Ico, card_range]
  obtain ⟨i, hi, hpower⟩ :=
    surjOn_of_injOn_of_card_le power hmaps hinj hcard (mem_coe.mpr (mem_Ico.mpr ⟨hpos, hlt⟩))
  exact ⟨i, mem_range.mp hi, hpower⟩

/-! ## Buffers -/

theorem getD_set {l : List ℕ} {i : ℕ} (hi : i < l.length) (a j : ℕ) :
    (l.set i a).getD j 0 = if i = j then a else l.getD j 0 := by
  rw [List.getD_eq_getElem?_getD, List.getElem?_set, if_pos hi, apply_ite (Option.getD · 0)]
  rfl

theorem getD_replicate (n t : ℕ) : (List.replicate n 0).getD t 0 = 0 := by
  rw [List.getD_eq_getElem?_getD, List.getElem?_getD_replicate_default_eq]

def Bytes (l : List ℕ) : Prop := ∀ t, l.getD t 0 < 256

theorem ext_getD {R : Type*} [Zero R] {l l' : List R} (hlen : l.length = l'.length)
    (h : ∀ t < l.length, l.getD t 0 = l'.getD t 0) : l = l' := by
  refine List.ext_getElem hlen fun t ht ht' => ?_
  rw [← List.getD_eq_getElem l 0 ht, ← List.getD_eq_getElem l' 0 ht', h t ht]

theorem length_foldl_set (at_index : ℕ → ℕ) (val : List ℕ → ℕ → ℕ) (js l : List ℕ) :
    (js.foldl (fun l j => l.set (at_index j) (val l j)) l).length = l.length := by
  induction js generalizing l with
  | nil => rfl
  | cons j js ih => rw [List.foldl_cons, ih, List.length_set]

/-- The loop of `rs_gen_poly`: what it reads below an index is as it was. -/
theorem getD_descending (f : ℕ → ℕ → ℕ) (m : ℕ) {l : List ℕ} (hm : m < l.length) (t : ℕ) :
    ((List.range m).reverse.foldl (fun l j =>
        l.set (j + 1) (f (l.getD (j + 1) 0) (l.getD j 0))) l).getD t 0 =
      if 0 < t ∧ t ≤ m then f (l.getD t 0) (l.getD (t - 1) 0) else l.getD t 0 := by
  induction m generalizing l with
  | zero => rw [if_neg (by omega)]; rfl
  | succ m ih =>
    rw [List.range_succ, List.reverse_append, List.reverse_singleton, List.singleton_append,
      List.foldl_cons, ih (by rw [List.length_set]; omega), getD_set hm, getD_set hm]
    obtain hlt | rfl | hgt := lt_trichotomy t (m + 1)
    · rw [if_neg hlt.ne', if_neg (show m + 1 ≠ t - 1 by omega)]
      exact if_congr (by omega) rfl rfl
    · rw [if_neg (by omega), if_pos rfl, if_pos (by omega), Nat.add_sub_cancel]
    · rw [if_neg (by omega), if_neg (by omega), if_neg (by omega)]

/-- The loop of `rs_encode`: what it reads above an index is as it was. -/
theorem getD_ascending (f : ℕ → ℕ → ℕ) {m : ℕ} {l : List ℕ} (hm : m ≤ l.length) (t : ℕ) :
    ((List.range m).foldl (fun l j => l.set j (f (l.getD (j + 1) 0) j)) l).getD t 0 =
      if t < m then f (l.getD (t + 1) 0) t else l.getD t 0 := by
  induction m generalizing t with
  | zero => rfl
  | succ m ih =>
    have hlt : m < ((List.range m).foldl (fun l j =>
        l.set j (f (l.getD (j + 1) 0) j)) l).length := by
      rw [length_foldl_set (fun j => j)]
      exact hm
    rw [List.range_succ, List.foldl_append, List.foldl_cons, List.foldl_nil, getD_set hlt,
      ih (by omega), ih (by omega)]
    obtain hlt | rfl | hgt := lt_trichotomy t m
    · rw [if_neg hlt.ne', if_pos hlt, if_pos (by omega)]
    · rw [if_pos rfl, if_neg (by omega), if_pos (by omega)]
    · rw [if_neg hgt.ne, if_neg (by omega), if_neg (by omega)]

/-! ## The tables -/

/-- The tables behind `n` turns of the loop of `gf_init`. -/
structure Tables (n : ℕ) (gf : Gf) : Prop where
  length_exp : gf.gf_exp.length = 512
  length_log : gf.gf_log.length = 256
  exp_low : ∀ m < n, gf.gf_exp.getD m 0 = power m
  exp_high : ∀ m < n, gf.gf_exp.getD (m + 255) 0 = power m
  log : ∀ m < n, gf.gf_log.getD (power m) 0 = m

theorem tables_turn {n : ℕ} (hn : n < 255) {gf : Gf} (h : Tables n gf) :
    Tables (n + 1) (gf_turn (power n, gf) n).2 := by
  have hlow : n < gf.gf_exp.length := by
    rw [h.length_exp]
    omega
  have hhigh : n + 255 < (gf.gf_exp.set n (power n)).length := by
    rw [List.length_set, h.length_exp]
    omega
  have hlog : power n < gf.gf_log.length := by
    rw [h.length_log]
    exact (power_byte n).2
  unfold gf_turn
  constructor
  · rw [List.length_set, List.length_set, h.length_exp]
  · rw [List.length_set, h.length_log]
  · intro m hm
    rw [getD_set hhigh, if_neg (by omega), getD_set hlow]
    split
    · rename_i heq
      rw [heq]
    · exact h.exp_low m (by omega)
  · intro m hm
    rw [getD_set hhigh]
    split
    · rename_i heq
      rw [Nat.add_right_cancel heq]
    · rw [getD_set hlow, if_neg (by omega)]
      exact h.exp_high m (by omega)
  · intro m hm
    rw [getD_set hlog]
    split
    · rename_i heq
      exact power_injOn hn (by omega) heq
    · rename_i hne
      have hmn : m ≠ n := fun heq => hne (heq ▸ rfl)
      exact h.log m (by omega)

theorem tables_foldl {n : ℕ} (hn : n ≤ 255) {gf : Gf} (h : Tables 0 gf) :
    ∃ gf', (List.range n).foldl gf_turn (1, gf) = (power n, gf') ∧ Tables n gf' := by
  induction n with
  | zero => exact ⟨gf, rfl, h⟩
  | succ n ih =>
    obtain ⟨gf', hrun, htables⟩ := ih (by omega)
    refine ⟨(gf_turn (power n, gf') n).2, ?_, tables_turn hn htables⟩
    rw [List.range_succ, List.foldl_append, hrun, List.foldl_cons, List.foldl_nil, power_succ]
    rfl

theorem tables_gf_init : Tables 255 gf_init := by
  have hempty : Tables 0 ⟨List.replicate 512 0, List.replicate 256 0⟩ :=
    ⟨List.length_replicate, List.length_replicate, fun _ hm => absurd hm (Nat.not_lt_zero _),
      fun _ hm => absurd hm (Nat.not_lt_zero _), fun _ hm => absurd hm (Nat.not_lt_zero _)⟩
  obtain ⟨gf, hrun, htables⟩ := tables_foldl le_rfl hempty
  have hlast : 0 < gf.gf_log.length := by
    rw [htables.length_log]
    decide
  unfold gf_init
  rw [hrun]
  refine ⟨htables.length_exp, ?_, htables.exp_low, htables.exp_high, fun m hm => ?_⟩
  · rw [List.length_set, htables.length_log]
  · rw [getD_set hlast, if_neg (power_byte m).1.ne, htables.log m hm]

theorem gf_exp_eq {m : ℕ} (hm : m < 510) : gf_init.gf_exp.getD m 0 = power (m % 255) := by
  obtain hlow | hhigh := Nat.lt_or_ge m 255
  · rw [Nat.mod_eq_of_lt hlow, tables_gf_init.exp_low m hlow]
  · obtain ⟨k, rfl⟩ := Nat.exists_eq_add_of_le' hhigh
    rw [Nat.add_mod_right, Nat.mod_eq_of_lt (by omega), tables_gf_init.exp_high k (by omega)]

theorem gf_mul_power {i j : ℕ} (hi : i < 255) (hj : j < 255) :
    gf_mul gf_init (power i) (power j) = power ((i + j) % 255) := by
  have hpos : ¬(power i = 0 ∨ power j = 0) := by
    have hi := (power_byte i).1
    have hj := (power_byte j).1
    omega
  unfold gf_mul
  rw [if_neg hpos, tables_gf_init.log i hi, tables_gf_init.log j hj, gf_exp_eq (by omega)]

theorem gf_mul_lt {a b : ℕ} (ha : a < 256) (hb : b < 256) : gf_mul gf_init a b < 256 := by
  obtain rfl | hapos := Nat.eq_zero_or_pos a
  · unfold gf_mul
    rw [if_pos (Or.inl rfl)]
    decide
  obtain rfl | hbpos := Nat.eq_zero_or_pos b
  · unfold gf_mul
    rw [if_pos (Or.inr rfl)]
    decide
  obtain ⟨i, hi, rfl⟩ := exists_power hapos ha
  obtain ⟨j, hj, rfl⟩ := exists_power hbpos hb
  rw [gf_mul_power hi hj]
  exact (power_byte _).2

/-! ## The values of bytes -/

section Values

variable {R : Type*} [CommRing R]

/-- The byte as a polynomial with its bits for coefficients, at `α`. -/
def value (α : R) (n : ℕ) : R := ∑ i ∈ range 9, if n.testBit i = true then α ^ i else 0

theorem value_zero (α : R) : value α 0 = 0 := by simp [value]

theorem value_one (α : R) : value α 1 = 1 := by simp [value, sum_range_succ, Nat.testBit]

theorem value_polynomial (α : R) : value α 0x11D = α ^ 8 + α ^ 4 + α ^ 3 + α ^ 2 + 1 := by
  simp [value, sum_range_succ, Nat.testBit]
  ring

theorem value_shift (α : R) {a : ℕ} (h : a < 256) : value α (a <<< 1) = α * value α a := by
  have htop : a.testBit 8 = false := Nat.testBit_lt_two_pow h
  unfold value
  rw [sum_range_succ', sum_range_succ _ 8, htop, mul_add, mul_sum]
  simp [pow_succ']

theorem getD_map_value (α : R) (l : List ℕ) (t : ℕ) :
    (l.map (value α)).getD t 0 = value α (l.getD t 0) := by
  have hmap := List.getD_map (l := l) (d := 0) (n := t) (value α)
  rwa [value_zero] at hmap

variable [CharP R 2] {α : R}

theorem value_xor (α : R) (a b : ℕ) : value α (a ^^^ b) = value α a + value α b := by
  unfold value
  rw [← sum_add_distrib]
  refine sum_congr rfl fun i _ => ?_
  rw [Nat.testBit_xor]
  cases a.testBit i <;> cases b.testBit i <;> simp [CharTwo.add_self_eq_zero]

theorem value_double (hα : value α 0x11D = 0) {a : ℕ} (h : a < 256) :
    value α (double a) = α * value α a := by
  unfold double
  split
  · rw [value_xor, hα, add_zero, value_shift α h]
  · exact value_shift α h

theorem value_power (hα : value α 0x11D = 0) (i : ℕ) : value α (power i) = α ^ i := by
  induction i with
  | zero => rw [pow_zero, ← value_one α]; rfl
  | succ i ih => rw [power_succ, value_double hα (power_byte i).2, ih, pow_succ']

theorem pow_period (hα : value α 0x11D = 0) : α ^ 255 = 1 := by
  have hperiod : power 255 = 1 := minimalPeriod_double ▸ iterate_minimalPeriod
  rw [← value_power hα, hperiod, value_one]

theorem value_gf_exp (hα : value α 0x11D = 0) {m : ℕ} (hm : m < 510) :
    value α (gf_init.gf_exp.getD m 0) = α ^ m := by
  rw [gf_exp_eq hm, value_power hα, ← pow_eq_pow_mod m (pow_period hα)]

theorem value_gf_mul (hα : value α 0x11D = 0) {a b : ℕ} (ha : a < 256) (hb : b < 256) :
    value α (gf_mul gf_init a b) = value α a * value α b := by
  unfold gf_mul
  split
  · rename_i hzero
    obtain rfl | rfl := hzero
    · rw [value_zero, zero_mul]
    · rw [value_zero, mul_zero]
  · rename_i hpos
    obtain ⟨i, hi, rfl⟩ := exists_power (Nat.pos_of_ne_zero fun h => hpos (Or.inl h)) ha
    obtain ⟨j, hj, rfl⟩ := exists_power (Nat.pos_of_ne_zero fun h => hpos (Or.inr h)) hb
    rw [tables_gf_init.log i hi, tables_gf_init.log j hj, value_gf_exp hα (by omega),
      value_power hα, value_power hα, pow_add]

/-! ## The generator -/

/-- The first `k` powers of `α`. -/
def roots (α : R) (k : ℕ) : List R := (List.range k).map (α ^ ·)

/-- The polynomial behind `k` turns, with the zeros that are left of its buffer. -/
structure Product (α : R) (n k : ℕ) (poly : List ℕ) : Prop where
  length_eq : poly.length = n + 1
  bytes : Bytes poly
  value_eq : ∀ t, value α (poly.getD t 0) = (generator (roots α k)).getD t 0

theorem product_turn (hα : value α 0x11D = 0) {n k : ℕ} (hk : k < n) (hn : n ≤ 510)
    {poly : List ℕ} (h : Product α n k poly) :
    Product α n (k + 1) (gen_poly_turn gf_init poly k) := by
  have hlen : k + 1 < poly.length := by
    rw [h.length_eq]
    omega
  have hroot : gf_init.gf_exp.getD k 0 < 256 := by
    rw [gf_exp_eq (by omega)]
    exact (power_byte _).2
  have hturn : ∀ t, (gen_poly_turn gf_init poly k).getD t 0 =
      if 0 < t ∧ t ≤ k + 1 then
        poly.getD t 0 ^^^ gf_mul gf_init (poly.getD (t - 1) 0) (gf_init.gf_exp.getD k 0)
      else poly.getD t 0 :=
    getD_descending (fun a b => a ^^^ gf_mul gf_init b (gf_init.gf_exp.getD k 0)) (k + 1) hlen
  have hlength : (generator (roots α k)).length = k + 1 := by
    rw [length_generator, roots, List.length_map, List.length_range]
  refine ⟨?_, fun t => ?_, fun t => ?_⟩
  · rw [← h.length_eq]
    exact length_foldl_set (· + 1) _ _ poly
  · rw [hturn]
    split
    · exact Nat.xor_lt_two_pow (n := 8) (h.bytes t) (gf_mul_lt (h.bytes _) hroot)
    · exact h.bytes t
  · have hroots : roots α (k + 1) = roots α k ++ [α ^ k] := by
      rw [roots, List.range_succ, List.map_append]
      rfl
    rw [hturn, hroots, generator_concat, getD_times_root]
    obtain rfl | hpos := Nat.eq_zero_or_pos t
    · rw [if_neg (by omega), if_pos rfl, add_zero, h.value_eq]
    · rw [if_neg hpos.ne']
      split
      · rw [value_xor, value_gf_mul hα (h.bytes _) hroot, value_gf_exp hα (by omega), h.value_eq,
          h.value_eq, mul_comm]
      · rename_i hhigh
        have hzero : (generator (roots α k)).getD (t - 1) 0 = 0 :=
          List.getD_eq_default _ _ (by omega)
        rw [h.value_eq, hzero, mul_zero, add_zero]

theorem product_foldl (hα : value α 0x11D = 0) {n k : ℕ} (hk : k ≤ n) (hn : n ≤ 510) :
    Product α n k ((List.range k).foldl (gen_poly_turn gf_init) (1 :: List.replicate n 0)) := by
  induction k with
  | zero =>
    have hdigit : ∀ t, (1 :: List.replicate n 0).getD t 0 = if t = 0 then 1 else 0 := fun t => by
      cases t with
      | zero => rfl
      | succ t => rw [List.getD_cons_succ, getD_replicate, if_neg t.succ_ne_zero]
    refine ⟨by rw [List.range_zero, List.foldl_nil, List.length_cons, List.length_replicate],
      fun t => ?_, fun t => ?_⟩
    · rw [List.range_zero, List.foldl_nil, hdigit]
      split <;> decide
    · rw [List.range_zero, List.foldl_nil, hdigit]
      cases t with
      | zero => exact value_one α
      | succ t => rw [if_neg t.succ_ne_zero, value_zero]; rfl
  | succ k ih =>
    rw [List.range_succ, List.foldl_append, List.foldl_cons, List.foldl_nil]
    exact product_turn hα hk hn (ih (by omega))

theorem map_rs_gen_poly (hα : value α 0x11D = 0) {n : ℕ} (hn : n ≤ 510) :
    Bytes (rs_gen_poly gf_init n) ∧
      (rs_gen_poly gf_init n).map (value α) = generator (roots α n) := by
  have h : Product α n n (rs_gen_poly gf_init n) := product_foldl hα le_rfl hn
  refine ⟨h.bytes, ext_getD ?_ fun t _ => ?_⟩
  · rw [List.length_map, h.length_eq, length_generator, roots, List.length_map, List.length_range]
  · rw [getD_map_value, h.value_eq]

/-! ## The shift register -/

section Register

variable {n : ℕ} {gen_poly : List ℕ} {g : List R}

theorem getD_rs_encode_turn (hpos : 0 < n) {ec : List ℕ} (hlen : ec.length = n) (byte t : ℕ)
    (ht : t < n) :
    (rs_encode_turn gf_init n gen_poly ec byte).getD t 0 =
      ec.getD (t + 1) 0 ^^^ gf_mul gf_init (gen_poly.getD (t + 1) 0) (byte ^^^ ec.getD 0 0) := by
  have hlast : n - 1 < ((List.range (n - 1)).foldl (fun ec' j =>
      ec'.set j (ec'.getD (j + 1) 0 ^^^
        gf_mul gf_init (gen_poly.getD (j + 1) 0) (byte ^^^ ec.getD 0 0))) ec).length := by
    rw [length_foldl_set (fun j => j), hlen]
    omega
  unfold rs_encode_turn
  rw [getD_set hlast]
  split
  · rename_i heq
    rw [← heq, Nat.sub_add_cancel hpos, List.getD_eq_default ec _ hlen.le, Nat.zero_xor]
  · rw [getD_ascending (fun a j => a ^^^
      gf_mul gf_init (gen_poly.getD (j + 1) 0) (byte ^^^ ec.getD 0 0)) (by omega),
      if_pos (by omega)]

variable (hα : value α 0x11D = 0) (hpos : 0 < n) (hgen : gen_poly.map (value α) = 1 :: g)
  (hn : g.length = n) (hbytes : Bytes gen_poly)

include hpos hbytes in
theorem bytes_rs_encode_turn {ec : List ℕ} (hlen : ec.length = n) (hec : Bytes ec) {byte : ℕ}
    (hbyte : byte < 256) : (rs_encode_turn gf_init n gen_poly ec byte).length = n ∧
      Bytes (rs_encode_turn gf_init n gen_poly ec byte) := by
  have hlength : (rs_encode_turn gf_init n gen_poly ec byte).length = n := by
    unfold rs_encode_turn
    rw [List.length_set, length_foldl_set (fun j => j), hlen]
  refine ⟨hlength, fun t => ?_⟩
  obtain ht | ht := Nat.lt_or_ge t n
  · rw [getD_rs_encode_turn hpos hlen byte t ht]
    have hfactor : byte ^^^ ec.getD 0 0 < 256 := Nat.xor_lt_two_pow (n := 8) hbyte (hec 0)
    exact Nat.xor_lt_two_pow (n := 8) (hec _) (gf_mul_lt (hbytes _) hfactor)
  · rw [List.getD_eq_default _ _ (by omega)]
    decide

include hα hpos hgen hn hbytes in
/-- One turn of the loop of `rs_encode` is one step of the register. -/
theorem map_rs_encode_turn {ec : List ℕ} (hlen : ec.length = n) (hec : Bytes ec) {byte : ℕ}
    (hbyte : byte < 256) : (rs_encode_turn gf_init n gen_poly ec byte).map (value α) =
      feed g (ec.map (value α)) (value α byte) := by
  have hreg : (ec.map (value α)).length = g.length := by rw [List.length_map, hlen, hn]
  have hne : g ≠ [] := List.ne_nil_of_length_pos (by omega)
  have hlength := (bytes_rs_encode_turn hpos hbytes hlen hec hbyte).1
  refine ext_getD ?_ fun t ht => ?_
  · rw [length_feed hreg hne, List.length_map, hlength, hn]
  · rw [List.length_map, hlength] at ht
    have hcoeff : g.getD t 0 = value α (gen_poly.getD (t + 1) 0) := by
      rw [← getD_map_value, hgen, List.getD_cons_succ]
    have hfactor : byte ^^^ ec.getD 0 0 < 256 := Nat.xor_lt_two_pow (n := 8) hbyte (hec 0)
    rw [getD_map_value, getD_rs_encode_turn hpos hlen byte t ht, value_xor,
      value_gf_mul hα (hbytes _) hfactor, value_xor, getD_feed hreg hne, getD_map_value,
      getD_map_value, hcoeff, mul_comm]

include hα hpos hgen hn hbytes in
theorem map_rs_encode {data : List ℕ} (hdata : ∀ byte ∈ data, byte < 256) {ec : List ℕ}
    (hlen : ec.length = n) (hec : Bytes ec) :
    (data.foldl (rs_encode_turn gf_init n gen_poly) ec).map (value α) =
      (data.map (value α)).foldl (feed g) (ec.map (value α)) := by
  induction data generalizing ec with
  | nil => rfl
  | cons byte data ih =>
    have hbyte := hdata byte List.mem_cons_self
    obtain ⟨hlen', hec'⟩ := bytes_rs_encode_turn hpos hbytes hlen hec hbyte
    rw [List.foldl_cons, ih (fun b hb => hdata b (List.mem_cons_of_mem _ hb)) hlen' hec',
      map_rs_encode_turn hα hpos hgen hn hbytes hlen hec hbyte, List.map_cons, List.foldl_cons]

end Register

/-- The word of data and check symbols is zero at the roots of the generator. -/
theorem eval_rs_encode (hα : value α 0x11D = 0) {data : List ℕ}
    (hdata : ∀ byte ∈ data, byte < 256) {n i : ℕ} (hn : n ≤ 510) (hi : i < n) :
    eval (α ^ i) ((data ++ rs_encode gf_init data n
      (rs_gen_poly gf_init n)).map (value α)) = 0 := by
  obtain ⟨hbytes, hgen⟩ := map_rs_gen_poly hα hn
  obtain ⟨g, hg⟩ := head_generator (roots α n)
  have hlen : g.length = n := by
    have hlen := length_generator (roots α n)
    rw [hg, List.length_cons, roots, List.length_map, List.length_range] at hlen
    exact Nat.succ_injective hlen
  have hzeros : Bytes (List.replicate n 0) := fun t => by
    rw [getD_replicate]
    decide
  have hroot : eval (α ^ i) (1 :: g) = 0 := by
    rw [← hg]
    exact eval_generator_eq_zero (List.mem_map_of_mem (List.mem_range.mpr hi))
  have hmap := map_rs_encode hα (Nat.zero_lt_of_lt hi) (hgen.trans hg) hlen hbytes hdata
    List.length_replicate hzeros
  have hne : g ≠ [] := List.ne_nil_of_length_pos (by omega)
  rw [List.map_append, rs_encode, hmap, List.map_replicate, value_zero, ← hlen]
  exact (eval_foldl_feed hne hroot _).1

end Values

/-! ## The field -/

open Polynomial in
/-- `0x11D` as a polynomial over GF(2). -/
noncomputable def modulus : (ZMod 2)[X] := X ^ 8 + X ^ 4 + X ^ 3 + X ^ 2 + 1

theorem degree_modulus : modulus.degree = 8 := by
  unfold modulus
  compute_degree!

theorem eval_modulus {S : Type*} [CommRing S] (f : ZMod 2 →+* S) (x : S) :
    modulus.eval₂ f x = x ^ 8 + x ^ 4 + x ^ 3 + x ^ 2 + 1 := by
  simp [modulus, Polynomial.eval₂_add]

abbrev Gf256 : Type := AdjoinRoot modulus

noncomputable def alpha : Gf256 := AdjoinRoot.root modulus

theorem value_alpha : value alpha 0x11D = 0 := by
  rw [value_polynomial, ← eval_modulus (AdjoinRoot.of modulus)]
  exact AdjoinRoot.eval₂_root modulus

instance charP_gf256 : CharP Gf256 2 := by
  have hdegree : modulus.degree ≠ 0 := by
    rw [degree_modulus]
    decide
  have := AdjoinRoot.nontrivial modulus hdegree
  exact charP_of_injective_algebraMap (algebraMap (ZMod 2) Gf256).injective 2

/-- **Codewords.** Whatever the data, the word of data and check symbols is zero at the first
`ec_len` powers of `alpha`. -/
theorem rs_encode_codeword (data : List UInt8) {ec_len i : ℕ} (hec : ec_len ≤ 63)
    (hi : i < ec_len) :
    eval (alpha ^ i) ((data.map UInt8.toNat ++ rs_encode gf_init (data.map UInt8.toNat) ec_len
      (rs_gen_poly gf_init ec_len)).map (value alpha)) = 0 := by
  refine eval_rs_encode value_alpha (fun byte hbyte => ?_) (hec.trans (by decide)) hi
  obtain ⟨b, -, rfl⟩ := List.mem_map.mp hbyte
  exact b.toNat_lt

/-- The largest of the buffers, at the highest of its powers. -/
theorem rs_encode_codeword_largest :
    eval (alpha ^ 62) (([0x40, 0x11].map UInt8.toNat ++ rs_encode gf_init
      ([0x40, 0x11].map UInt8.toNat) 63 (rs_gen_poly gf_init 63)).map (value alpha)) = 0 :=
  rs_encode_codeword [0x40, 0x11] le_rfl (by decide)

end SysInC.Qr
