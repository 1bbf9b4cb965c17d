/-
Which arguments of `fp32_sqrt` are in reach.

A stretch of arguments is settled by one run of seven turns, from the start of the argument at its
end and towards the root at its other end. Where that is too coarse, the stretch is the arguments of
a single root, and the run is that of the last argument. So the bounds are a matter of some hundred
runs, which are computed.
-/
import SysInC.Kfixed

set_option autoImplicit false

namespace SysInC.Kfixed

open NewtonSqrt

/-! ## Stretches of arguments -/

section Stretch

variable {n m s : ℕ}

theorem first_start_le (h : n ≤ m) : first_start n ≤ first_start m :=
  Nat.div_le_div_right (Nat.add_le_add_right h 65536)

theorem sqrt_pos (hn : 0 < n) : 0 < Nat.sqrt (n * 65536) :=
  Nat.sqrt_pos.mpr (Nat.mul_pos hn (by decide))

/-- Up to `m`, the roots from `s` on. -/
theorem inReach_of_roots (hn : 0 < n) (hm : n ≤ m) (hsum : m + 65536 < 2 ^ 31) (hs : 0 < s)
    (hroot : s ≤ Nat.sqrt (n * 65536))
    (h : (newton (s ^ 2 + 2 * s))^[7] (first_start m) ≤ s + 1) : InReach n := by
  have hself : Nat.sqrt (s ^ 2 + 2 * s) = s := Nat.sqrt_add_eq' s (Nat.two_mul s).le
  have hstart : Nat.sqrt (s ^ 2 + 2 * s) ≤ first_start m :=
    hself.le.trans ((hroot.trans (sqrt_le_first_start hn)).trans (first_start_le hm))
  have hback : first_start m < (back (s ^ 2 + 2 * s))^[7] (s + 2) := by
    refine not_le.mp fun hle => ?_
    have hlarge := (le_iterate_newton_iff (hself.symm ▸ hs) (by rw [hself]) hstart 7).mpr hle
    exact absurd (hlarge.trans h) (Nat.lt_irrefl _)
  have hN : n * 65536 ≤ Nat.sqrt (n * 65536) ^ 2 + 2 * Nat.sqrt (n * 65536) := by
    have hlt := Nat.lt_succ_sqrt' (n * 65536)
    generalize Nat.sqrt (n * 65536) = r at *
    nlinarith
  have hshift := (iterate_back_shift_up hroot hN 7).1
  refine ⟨by omega, lt_of_le_of_lt (first_start_le hm) ?_⟩
  omega

/-- Up to `m`, the arguments of its root. -/
theorem inReach_of_root (hm : n ≤ m) (hsum : m + 65536 < 2 ^ 31) (hn : 0 < n)
    (hroot : Nat.sqrt (n * 65536) = Nat.sqrt (m * 65536))
    (h : (newton (m * 65536))^[7] (first_start m) ≤ Nat.sqrt (m * 65536) + 1) : InReach n := by
  have hm0 : 0 < m := hn.trans_le hm
  have hback : first_start m < (back (m * 65536))^[7] (Nat.sqrt (m * 65536) + 2) := by
    refine not_le.mp fun hle => ?_
    have hlarge := (le_iterate_newton_iff (sqrt_pos hm0) le_rfl (sqrt_le_first_start hm0) 7).mpr hle
    exact absurd (hlarge.trans h) (Nat.lt_irrefl _)
  refine ⟨by omega, lt_of_le_of_lt (first_start_le hm) (hback.trans_le ?_)⟩
  rw [hroot]
  exact iterate_back_le (Nat.mul_le_mul_right 65536 hm) le_rfl 7

/-- From `m` on, the roots up to `s`. -/
theorem not_inReach_of_roots (hm : m ≤ n) (hs : 0 < s) (hroot : Nat.sqrt (n * 65536) ≤ s)
    (hstart : s ≤ first_start m) (h : s + 2 ≤ (newton (s ^ 2))^[7] (first_start m)) :
    ¬InReach n := by
  have hself : Nat.sqrt (s ^ 2) = s := Nat.sqrt_eq' s
  have hback := (le_iterate_newton_iff (hself.symm ▸ hs) (by rw [hself]) (hself.le.trans hstart)
    7).mp h
  have hshift := (iterate_back_shift_down hroot (Nat.sqrt_le' (n * 65536)) 7).1
  have hle := first_start_le hm
  rintro ⟨-, hlt⟩
  unfold first_start at *
  omega

/-- From `m` on, the arguments of its root. -/
theorem not_inReach_of_root (hm : m ≤ n) (hm0 : 0 < m)
    (hroot : Nat.sqrt (n * 65536) = Nat.sqrt (m * 65536))
    (h : Nat.sqrt (m * 65536) + 2 ≤ (newton (m * 65536))^[7] (first_start m)) : ¬InReach n := by
  have hback := (le_iterate_newton_iff (sqrt_pos hm0) le_rfl (sqrt_le_first_start hm0) 7).mp h
  have hle : (back (n * 65536))^[7] (Nat.sqrt (m * 65536) + 2)
      ≤ (back (m * 65536))^[7] (Nat.sqrt (m * 65536) + 2) :=
    iterate_back_le (Nat.mul_le_mul_right 65536 hm) le_rfl 7
  rintro ⟨-, hlt⟩
  rw [hroot] at hlt
  exact absurd (hlt.trans_le (hle.trans (hback.trans (first_start_le hm)))) (Nat.lt_irrefl _)

end Stretch

/-! ## The runs -/

/-- The runs for the roots from `x` up to `y`, and the arguments up to `top`. -/
def reaches (top x y : ℕ) : Bool :=
  let m := min top ((y ^ 2 - 1) / 65536)
  (Nat.ble 1 x && Nat.ble ((newton (x ^ 2 + 2 * x))^[7] (first_start m)) (x + 1))
    || (Nat.beq y (x + 1) && Nat.ble ((newton (m * 65536))^[7] (first_start m)) (x + 1))

/-- The runs for the roots from `x` up to `y`, and the arguments from `bottom` on. -/
def misses (bottom x y : ℕ) : Bool :=
  let m := max bottom ((x ^ 2 + 65535) / 65536)
  (Nat.ble 2 y && Nat.ble (y - 1) (first_start m)
      && Nat.ble (y + 1) ((newton ((y - 1) ^ 2))^[7] (first_start m)))
    || (Nat.beq y (x + 1) && Nat.ble (x + 2) ((newton (m * 65536))^[7] (first_start m)))

/-- Each two bounds in a row pass the check. -/
def chain (check : ℕ → ℕ → Bool) : List ℕ → Bool
  | x :: y :: l => check x y && chain check (y :: l)
  | _ => true

theorem chain_between {check : ℕ → ℕ → Bool} {l : List ℕ} {x last s : ℕ}
    (h : chain check (x :: l) = true) (hx : x ≤ s) (hlast : (x :: l).getLast? = some last)
    (hs : s < last) : ∃ y z, check y z = true ∧ y ≤ s ∧ s < z := by
  induction l generalizing x with
  | nil =>
      obtain rfl : x = last := Option.some.inj hlast
      exact absurd hs hx.not_gt
  | cons y l ih =>
      obtain ⟨hcheck, hrest⟩ := Bool.and_eq_true_iff.mp h
      by_cases hy : y ≤ s
      · exact ih hrest hy (by rwa [List.getLast?_cons_cons] at hlast)
      · exact ⟨x, y, hcheck, hx, not_le.mp hy⟩

section Checks

variable {n m x y : ℕ}

/-- Two arguments of a single root. -/
theorem sqrt_eq_of_le (hle : n ≤ m) (hn : x ^ 2 ≤ n * 65536) (hm : m * 65536 < (x + 1) ^ 2) :
    Nat.sqrt (n * 65536) = x ∧ Nat.sqrt (m * 65536) = x := by
  have hge := Nat.le_sqrt'.mpr hn
  have hlt := Nat.sqrt_lt'.mpr hm
  have hmono := Nat.sqrt_le_sqrt (Nat.mul_le_mul_right 65536 hle)
  omega

theorem inReach_of_reaches {top : ℕ} (h : reaches top x y = true) (htop : top + 65536 < 2 ^ 31)
    (hn : 0 < n) (hle : n ≤ top) (hx : x ≤ Nat.sqrt (n * 65536))
    (hy : Nat.sqrt (n * 65536) < y) : InReach n := by
  have hlt : n * 65536 < y ^ 2 := Nat.sqrt_lt'.mp hy
  have hm : n ≤ min top ((y ^ 2 - 1) / 65536) := by omega
  have hsum : min top ((y ^ 2 - 1) / 65536) + 65536 < 2 ^ 31 := by omega
  have hend : min top ((y ^ 2 - 1) / 65536) * 65536 < y ^ 2 :=
    calc min top ((y ^ 2 - 1) / 65536) * 65536
        ≤ (y ^ 2 - 1) / 65536 * 65536 := Nat.mul_le_mul_right _ (Nat.min_le_right _ _)
      _ ≤ y ^ 2 - 1 := Nat.div_mul_le_self _ _
      _ < y ^ 2 := Nat.sub_lt (Nat.zero_lt_of_lt hlt) Nat.one_pos
  simp only [reaches, Bool.or_eq_true, Bool.and_eq_true, Nat.ble_eq, Nat.beq_eq] at h
  rcases h with ⟨hpos, hrun⟩ | ⟨hnext, hrun⟩
  · exact inReach_of_roots hn hm hsum hpos hx hrun
  · rw [hnext] at hend hm hsum hrun
    obtain ⟨hsame, hlast⟩ := sqrt_eq_of_le hm (Nat.le_sqrt'.mp hx) hend
    refine inReach_of_root hm hsum hn (hsame.trans hlast.symm) ?_
    rw [hlast]
    exact hrun

theorem not_inReach_of_misses {bottom : ℕ} (h : misses bottom x y = true) (hbottom : 0 < bottom)
    (hle : bottom ≤ n) (hx : x ≤ Nat.sqrt (n * 65536)) (hy : Nat.sqrt (n * 65536) < y) :
    ¬InReach n := by
  have hsq : x ^ 2 ≤ n * 65536 := Nat.le_sqrt'.mp hx
  have hm : max bottom ((x ^ 2 + 65535) / 65536) ≤ n := by omega
  have hm0 : 0 < max bottom ((x ^ 2 + 65535) / 65536) := by omega
  have hstart' : x ^ 2 ≤ max bottom ((x ^ 2 + 65535) / 65536) * 65536 := by
    have hceil : x ^ 2 ≤ (x ^ 2 + 65535) / 65536 * 65536 := by
      generalize x ^ 2 = q
      omega
    exact hceil.trans (Nat.mul_le_mul_right _ (Nat.le_max_right _ _))
  simp only [misses, Bool.or_eq_true, Bool.and_eq_true, Nat.ble_eq, Nat.beq_eq] at h
  rcases h with ⟨⟨htwo, hstart⟩, hrun⟩ | ⟨hnext, hrun⟩
  · obtain ⟨s, rfl⟩ : ∃ s, y = s + 1 := Nat.exists_eq_succ_of_ne_zero (by rintro rfl; cases htwo)
    exact not_inReach_of_roots hm (Nat.le_of_succ_le_succ htwo) (Nat.le_of_lt_succ hy) hstart hrun
  · rw [hnext, Nat.sqrt_lt'] at hy
    obtain ⟨hfirst, hsame⟩ := sqrt_eq_of_le hm hstart' hy
    refine not_inReach_of_root hm hm0 (hsame.trans hfirst.symm) ?_
    rw [hfirst]
    exact hrun

end Checks

/-! ## The bounds -/

variable {n : ℕ}

/-- Bounds of roots between which the arguments from 13 to 73496194 are in reach. -/
def near_roots : List ℕ :=
  List.range' 923 44
    ++ [967, 1238, 32167, 305426, 875057, 1428435, 1795511, 1998021, 2100390, 2150008, 2173611,
      2184762, 2189998, 2192417, 2193601, 2194124, 2194350, 2194449, 2194493, 2194511, 2194527,
      2194595, 2194626, 2194637, 2194642, 2194646, 2194648]
    ++ List.range' 2194649 38

/-- Between these, those below 13 are not. -/
def low_roots : List ℕ := 256 :: List.range' 864 24

/-- Nor are those from 80147607 on. -/
def high_roots : List ℕ :=
  List.range' 2291845 15
    ++ [2291860, 2291862, 2291867, 2291881, 2291911, 2291979, 2292137, 2292382, 2292953, 2294153,
      2296740, 2302330, 2314357, 2340360, 2397090, 2523332, 2816810, 3565191, 5900326, 11863103]

theorem roots_chains : chain (reaches 73496194) near_roots = true
    ∧ chain (misses 1) low_roots = true ∧ chain (misses 80147607) high_roots = true := by
  decide

theorem inReach_of_near (hge : 13 ≤ n) (hle : n ≤ 73496194) : InReach n := by
  have hfirst : 923 ≤ Nat.sqrt (n * 65536) := by
    rw [Nat.le_sqrt']
    omega
  have hlast : Nat.sqrt (n * 65536) < 2194686 := by
    rw [Nat.sqrt_lt']
    omega
  obtain ⟨x, y, hcheck, hx, hy⟩ := chain_between roots_chains.1 hfirst rfl hlast
  exact inReach_of_reaches hcheck (by decide) (by omega) hle hx hy

theorem not_inReach_of_low (hn : 0 < n) (hle : n ≤ 12) : ¬InReach n := by
  have hfirst : 256 ≤ Nat.sqrt (n * 65536) := by
    rw [Nat.le_sqrt']
    omega
  have hlast : Nat.sqrt (n * 65536) < 887 := by
    rw [Nat.sqrt_lt']
    omega
  obtain ⟨x, y, hcheck, hx, hy⟩ := chain_between roots_chains.2.1 hfirst rfl hlast
  exact not_inReach_of_misses hcheck (by decide) hn hx hy

theorem not_inReach_of_high (hge : 80147607 ≤ n) : ¬InReach n := by
  rintro ⟨hsum, hreach⟩
  have hfirst : 2291845 ≤ Nat.sqrt (n * 65536) := by
    rw [Nat.le_sqrt']
    omega
  have hlast : Nat.sqrt (n * 65536) < 11863103 := by
    rw [Nat.sqrt_lt']
    omega
  obtain ⟨x, y, hcheck, hx, hy⟩ := chain_between roots_chains.2.2 hfirst rfl hlast
  exact not_inReach_of_misses hcheck (by decide) hge hx hy ⟨hsum, hreach⟩

/-- **Accuracy**: the root is within one unit of the exact one, and no sum overflows, exactly for
the arguments from 13 to 73496194 and those up to 80147606 that are in reach. -/
theorem accurate_iff (a : ℤ) (hpos : 0 < a) (hlt : a < 2 ^ 31) :
    Accurate a ↔ 13 ≤ a ∧ (a ≤ 73496194 ∨ a ≤ 80147606 ∧ InReach a.toNat) := by
  obtain ⟨n, rfl⟩ := Int.eq_ofNat_of_zero_le hpos.le
  have hn : 0 < n := Int.natCast_pos.mp hpos
  have hn' : n < 2 ^ 31 := by omega
  rw [Int.toNat_natCast, accurate_iff_inReach hn hn']
  constructor
  · intro hreach
    have hge : ¬n ≤ 12 := fun hle => not_inReach_of_low hn hle hreach
    have hle : ¬80147607 ≤ n := fun hge => not_inReach_of_high hge hreach
    exact ⟨by omega, Or.inr ⟨by omega, hreach⟩⟩
  · rintro ⟨hge, hle | ⟨-, hreach⟩⟩
    · exact inReach_of_near (by omega) (by omega)
    · exact hreach

/-- The root of one. -/
theorem accurate_iff_one : Accurate 65536 :=
  (accurate_iff 65536 (by decide) (by decide)).mpr ⟨by decide, Or.inl (by decide)⟩

/-- The root of 2000 is 2930859 in 16.16, and eight turns come to 2930921. -/
theorem not_accurate_2000 : ¬∀ a : ℤ, 0 < a → a < 2 ^ 31 → Accurate a := by
  intro h
  have hroot : exact_sqrt 131072000 = 2930859 := (Nat.eq_sqrt.mpr (by decide)).symm
  have hsqrt : fp32_sqrt 131072000 = some 2930921 := rfl
  obtain ⟨r, hr, hnear⟩ := h 131072000 (by decide) (by decide)
  obtain rfl := Option.some.inj (hsqrt.symm.trans hr)
  rw [hroot] at hnear
  exact absurd hnear (by decide)

end SysInC.Kfixed
