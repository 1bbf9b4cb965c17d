/-
The register of a cyclic redundancy check, bit by bit and from the lowest bit on, over words of any
width.

A step is linear, and where the polynomial has its highest bit it loses nothing (`step_injective`).
So the register after up to as many bits as it has is a one-to-one image of those bits
(`run_eq_steps`), and two streams that differ only within such a window leave different registers
(`run_ne_of_window`).
-/
import Mathlib.Data.List.GetD
import Mathlib.Logic.Function.Iterate

set_option autoImplicit false

namespace SysInC.CrcRegister

variable {w : ℕ}

/-- Shift, and take the polynomial off where a bit falls out. -/
def step (poly c : BitVec w) : BitVec w := (c >>> 1) ^^^ if c.getLsbD 0 then poly else 0#w

/-- A bit in the lowest place. -/
def bit (b : Bool) : BitVec w := if b then 1#w else 0#w

def feed (poly c : BitVec w) (b : Bool) : BitVec w := step poly (c ^^^ bit b)

def run (poly c : BitVec w) (bits : List Bool) : BitVec w := bits.foldl (feed poly) c

/-- The bits as a word, the first in the lowest place. -/
def pack : List Bool → BitVec w
  | [] => 0#w
  | b :: bs => bit b ^^^ (pack bs <<< 1)

/-! ## The step -/

@[simp] theorem getLsbD_step (poly c : BitVec w) (i : ℕ) :
    (step poly c).getLsbD i = (c.getLsbD (i + 1) ^^ (c.getLsbD 0 && poly.getLsbD i)) := by
  rw [step, BitVec.getLsbD_xor, BitVec.getLsbD_ushiftRight, Nat.add_comm]
  cases c.getLsbD 0 with
  | true => rw [if_pos rfl, Bool.true_and]
  | false => rw [if_neg Bool.false_ne_true, BitVec.getLsbD_zero, Bool.false_and]

theorem step_xor (poly x y : BitVec w) : step poly (x ^^^ y) = step poly x ^^^ step poly y := by
  apply BitVec.eq_of_getLsbD_eq
  intro i _
  simp only [getLsbD_step, BitVec.getLsbD_xor]
  cases x.getLsbD 0 <;> cases y.getLsbD 0 <;> simp [Bool.xor_comm, Bool.xor_left_comm]

/-- The highest bit tells whether a bit fell out. -/
theorem step_injective {poly : BitVec w} (hpoly : poly.getLsbD (w - 1) = true) :
    Function.Injective (step poly) := by
  intro x y hxy
  have hbits : ∀ i, (step poly x).getLsbD i = (step poly y).getLsbD i := fun i => by rw [hxy]
  simp only [getLsbD_step] at hbits
  have hover : ∀ z : BitVec w, z.getLsbD (w - 1 + 1) = false := fun z =>
    BitVec.getLsbD_of_ge z _ (by omega)
  have hlow : x.getLsbD 0 = y.getLsbD 0 := by
    have htop := hbits (w - 1)
    rwa [hover, hover, hpoly, Bool.false_xor, Bool.false_xor, Bool.and_true, Bool.and_true] at htop
  apply BitVec.eq_of_getLsbD_eq
  intro i _
  cases i with
  | zero => exact hlow
  | succ i =>
    have hi := hbits i
    rwa [hlow, Bool.xor_left_inj] at hi

/-- A word whose highest bit is clear comes back from one place higher. -/
theorem step_shiftLeft {poly x : BitVec w} (h : x.getLsbD (w - 1) = false) :
    step poly (x <<< 1) = x := by
  apply BitVec.eq_of_getLsbD_eq
  intro i hi
  rw [getLsbD_step, BitVec.getLsbD_shiftLeft, BitVec.getLsbD_shiftLeft]
  rcases Nat.lt_or_ge (i + 1) w with hlt | hge
  · simp [hlt]
  · have hlast : i = w - 1 := by omega
    rw [hlast, h]
    simp
    omega

/-! ## A window of bits -/

@[simp] theorem getLsbD_bit (b : Bool) (i : ℕ) :
    (bit b : BitVec w).getLsbD i = (decide (0 < w) && decide (i = 0) && b) := by
  cases b with
  | true => rw [bit, if_pos rfl, BitVec.getLsbD_one, Bool.and_true]
  | false => rw [bit, if_neg Bool.false_ne_true, BitVec.getLsbD_zero, Bool.and_false]

theorem getLsbD_pack (bits : List Bool) (i : ℕ) :
    (pack bits : BitVec w).getLsbD i = (decide (i < w) && bits.getD i false) := by
  induction bits generalizing i with
  | nil => simp [pack]
  | cons b bits ih =>
      rw [pack, BitVec.getLsbD_xor, getLsbD_bit, BitVec.getLsbD_shiftLeft, ih]
      cases i with
      | zero => simp
      | succ i =>
        have hlt : i + 1 < w → i < w := Nat.lt_of_succ_lt
        by_cases hi : i + 1 < w <;> simp [hi, hlt]

/-- Up to `w` bits have a word each. -/
theorem pack_inj {bs cs : List Bool} (hlen : bs.length = cs.length) (hw : bs.length ≤ w)
    (h : (pack bs : BitVec w) = pack cs) : bs = cs := by
  apply List.ext_getElem hlen
  intro i hi hi'
  have hbit : (pack bs : BitVec w).getLsbD i = (pack cs : BitVec w).getLsbD i := by rw [h]
  rw [getLsbD_pack, getLsbD_pack, List.getD_eq_getElem _ _ hi, List.getD_eq_getElem _ _ hi'] at hbit
  simpa [Nat.lt_of_lt_of_le hi hw] using hbit

/-- Up to `w` bits fed one by one are fed at once. -/
theorem run_eq_steps (poly c : BitVec w) {bits : List Bool} (hw : bits.length ≤ w) :
    run poly c bits = (step poly)^[bits.length] (c ^^^ pack bits) := by
  induction bits generalizing c with
  | nil =>
      rw [pack, BitVec.xor_zero, run, List.foldl_nil, List.length_nil, Function.iterate_zero, id]
  | cons b bits ih =>
      rw [List.length_cons] at hw
      have hclear : (pack bits : BitVec w).getLsbD (w - 1) = false := by
        rw [getLsbD_pack, List.getD_eq_default _ _ (by omega), Bool.and_false]
      calc run poly c (b :: bits) = run poly (feed poly c b) bits := rfl
        _ = (step poly)^[bits.length] (step poly (c ^^^ bit b) ^^^ pack bits) := by
          rw [ih _ (by omega), feed]
        _ = (step poly)^[bits.length] (step poly (c ^^^ bit b ^^^ (pack bits <<< 1))) := by
          rw [step_xor poly (c ^^^ bit b), step_shiftLeft hclear]
        _ = (step poly)^[(b :: bits).length] (c ^^^ pack (b :: bits)) := by
          rw [List.length_cons, Function.iterate_succ_apply, pack, BitVec.xor_assoc]

theorem run_append (poly c : BitVec w) (xs ys : List Bool) :
    run poly c (xs ++ ys) = run poly (run poly c xs) ys :=
  List.foldl_append

theorem run_injective {poly : BitVec w} (hpoly : poly.getLsbD (w - 1) = true) (bits : List Bool) :
    Function.Injective fun c => run poly c bits := by
  induction bits with
  | nil => exact fun _ _ h => h
  | cons b bits ih =>
      intro x y hxy
      have hfeed : feed poly x b = feed poly y b := ih hxy
      exact (BitVec.xor_left_inj (bit b)).mp (step_injective hpoly hfeed)

/-- Streams that differ only within as many bits as the register has leave different registers. -/
theorem run_ne_of_window {poly : BitVec w} (hpoly : poly.getLsbD (w - 1) = true) (c : BitVec w)
    (front back : List Bool) {xs ys : List Bool} (hlen : xs.length = ys.length)
    (hw : xs.length ≤ w) (hne : xs ≠ ys) :
    run poly c (front ++ (xs ++ back)) ≠ run poly c (front ++ (ys ++ back)) := by
  intro heq
  rw [run_append, run_append, run_append, run_append] at heq
  -- what follows the window is one-to-one, and the window is fed at once
  have hwindow := run_injective hpoly back heq
  have hwy : ys.length ≤ w := hlen ▸ hw
  rw [run_eq_steps poly (run poly c front) hw, run_eq_steps poly (run poly c front) hwy,
    ← hlen] at hwindow
  have hpack := (step_injective hpoly).iterate _ hwindow
  exact hne (pack_inj hlen hw ((BitVec.xor_right_inj _).mp hpack))

/-! ## Differences -/

/-- Two lists of one length that are the same but in the `k` places from `i` on. -/
def DifferWithin {α : Type*} (i k : ℕ) (xs ys : List α) : Prop :=
  xs.length = ys.length ∧ ∀ j, xs[j]? ≠ ys[j]? → i ≤ j ∧ j < i + k

theorem DifferWithin.split {α : Type*} {i k : ℕ} {xs ys : List α} (h : DifferWithin i k xs ys) :
    ∃ front us vs back, xs = front ++ (us ++ back) ∧ ys = front ++ (vs ++ back)
      ∧ us.length = vs.length ∧ us.length ≤ k := by
  obtain ⟨hlen, hsame⟩ := h
  refine ⟨xs.take i, (xs.drop i).take k, (ys.drop i).take k, (xs.drop i).drop k, ?_, ?_, ?_,
    List.length_take_le _ _⟩
  · rw [List.take_append_drop, List.take_append_drop]
  · have hfront : xs.take i = ys.take i := by
      apply List.ext_getElem?
      intro j
      rw [List.getElem?_take, List.getElem?_take]
      split
      · next hj => exact of_not_not fun hne => absurd (hsame j hne).1 (Nat.not_le.mpr hj)
      · rfl
    have hback : (xs.drop i).drop k = (ys.drop i).drop k := by
      apply List.ext_getElem?
      intro j
      rw [List.drop_drop, List.drop_drop, List.getElem?_drop, List.getElem?_drop]
      exact of_not_not fun hne => absurd (hsame _ hne).2 (Nat.not_lt.mpr (Nat.le_add_right _ j))
    rw [hfront, hback, List.take_append_drop, List.take_append_drop]
  · rw [List.length_take, List.length_take, List.length_drop, List.length_drop, hlen]

end SysInC.CrcRegister
