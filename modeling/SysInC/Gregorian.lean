/-
The **Gregorian calendar**, proleptic in both directions: dates, the day after a date, and the
number of a day.

A date is numbered by the days of the years before its own, the days of the months before its own,
and its day. The number of the day after is one more (`number_tomorrow`) and no two dates share one
(`number_injective`), so that counting days forward is adding to the number, and the first day of
some kind is the one of the least number (`isLeast_days`).
-/
import Mathlib.Logic.Function.Iterate
import Mathlib.Order.Bounds.Basic
import Mathlib.Tactic.Common
import Mathlib.Tactic.IntervalCases

set_option autoImplicit false

namespace SysInC.Gregorian

/-! ## Years and months -/

/-- The years of 366 days. -/
def Leap (year : ℤ) : Prop := 4 ∣ year ∧ (100 ∣ year → 400 ∣ year)

instance : DecidablePred Leap := fun _ => inferInstanceAs (Decidable (_ ∧ _))

theorem not_leap_succ {year : ℤ} (h : Leap year) : ¬Leap (year + 1) := by
  intro h'
  have h4 := h.1
  have h4' := h'.1
  omega

/-- The days of a month; there are none in a month that is not one of the twelve. -/
def month_length (year : ℤ) : ℕ → ℕ
  | 0 => 0
  | 2 => if Leap year then 29 else 28
  | 4 | 6 | 9 | 11 => 30
  | 1 | 3 | 5 | 7 | 8 | 10 | 12 => 31
  | _ => 0

/-- The days of a year in front of a month. -/
def days_before_month (year : ℤ) : ℕ → ℕ
  | 0 => 0
  | month + 1 => days_before_month year month + month_length year month

def year_length (year : ℤ) : ℕ := days_before_month year 13

theorem year_length_eq (year : ℤ) : year_length year = if Leap year then 366 else 365 := by
  unfold year_length
  simp only [days_before_month, month_length]
  split
  · rfl
  · rfl

/-- The days from the first of January of the year 1 on to that of `year`. -/
def days_before_year (year : ℤ) : ℤ :=
  365 * (year - 1) + (year - 1) / 4 - (year - 1) / 100 + (year - 1) / 400

theorem days_before_year_succ (year : ℤ) :
    days_before_year (year + 1) = days_before_year year + year_length year := by
  rw [year_length_eq]
  unfold days_before_year
  split
  · next h =>
    obtain ⟨h4, h100⟩ := h
    omega
  · next h =>
    have h : ¬4 ∣ year ∨ (100 ∣ year ∧ ¬400 ∣ year) := by
      unfold Leap at h
      tauto
    omega

theorem days_before_year_lt {y z : ℤ} (h : y < z) : days_before_year y + year_length y
    ≤ days_before_year z := by
  rw [← days_before_year_succ]
  unfold days_before_year
  omega

theorem days_before_month_mono (year : ℤ) {m n : ℕ} (h : m ≤ n) :
    days_before_month year m ≤ days_before_month year n := by
  induction h with
  | refl => exact le_rfl
  | step _ ih => exact ih.trans (Nat.le_add_right _ _)

theorem month_le {year : ℤ} {month : ℕ} (h : 0 < month_length year month) :
    1 ≤ month ∧ month ≤ 12 := by
  unfold month_length at h
  split at h
  all_goals omega

theorem month_length_pos (year : ℤ) {month : ℕ} (h1 : 1 ≤ month) (h2 : month ≤ 12) :
    0 < month_length year month := by
  have hfebruary : 0 < if Leap year then 29 else 28 := by
    split
    · decide
    · decide
  interval_cases month
  all_goals first | exact hfebruary | exact Nat.succ_pos _

/-- Two years that are both leap years, or both not, have the same months. -/
theorem month_length_congr {y z : ℤ} (h : Leap y ↔ Leap z) (month : ℕ) :
    month_length y month = month_length z month := by
  unfold month_length
  simp only [h]

theorem days_before_month_congr {y z : ℤ} (h : Leap y ↔ Leap z) (month : ℕ) :
    days_before_month y month = days_before_month z month := by
  induction month with
  | zero => rfl
  | succ month ih => rw [days_before_month, days_before_month, ih, month_length_congr h]

/-- January begins a year, and February has 31 days in front of it. -/
theorem days_before_month_front (year : ℤ) {month : ℕ} (h : month ≤ 2) :
    days_before_month year month = 31 * (month - 1) := by
  match month, h with
  | 0, _ => rfl
  | 1, _ => rfl
  | 2, _ => rfl

/-- Behind February a leap year is a day ahead. -/
theorem days_before_month_leap {y z : ℤ} (hy : Leap y) (hz : ¬Leap z) {month : ℕ}
    (h : 3 ≤ month) : days_before_month y month = days_before_month z month + 1 := by
  induction month, h using Nat.le_induction with
  | base => simp only [days_before_month, month_length, if_pos hy, if_neg hz]
  | succ month hle ih =>
    have hlen : month_length y month = month_length z month := by
      unfold month_length
      split
      all_goals first | rfl | omega
    rw [days_before_month, days_before_month, ih, hlen]
    omega

/-! ## Dates -/

/-- A day of the calendar. -/
@[ext]
structure Date where
  year : ℤ
  month : ℕ
  day : ℕ
  pos : 1 ≤ day
  le : day ≤ month_length year month

/-- The days of the year in front of the date. -/
def Date.yday (d : Date) : ℕ := days_before_month d.year d.month + (d.day - 1)

/-- The number of the day; the first of January of the year 1 has the number 0. -/
def Date.number (d : Date) : ℤ := days_before_year d.year + d.yday

theorem Date.month_le (d : Date) : 1 ≤ d.month ∧ d.month ≤ 12 :=
  Gregorian.month_le (d.pos.trans d.le)

theorem Date.yday_lt_month (d : Date) : d.yday < days_before_month d.year (d.month + 1) := by
  have h1 := d.pos
  have h2 := d.le
  unfold Date.yday
  rw [days_before_month]
  omega

theorem Date.yday_lt (d : Date) : d.yday < year_length d.year := by
  refine d.yday_lt_month.trans_le (days_before_month_mono _ ?_)
  have := d.month_le
  omega

/-- An earlier year has the lower numbers. -/
theorem Date.number_lt {d e : Date} (h : d.year < e.year) : d.number < e.number := by
  have hlt := d.yday_lt
  have hle := days_before_year_lt h
  unfold Date.number
  omega

/-- A later month begins behind all the days of the one before. -/
theorem Date.yday_lt_yday {d e : Date} (hyear : d.year = e.year) (h : d.month < e.month) :
    d.yday < e.yday := by
  have hle : days_before_month d.year (d.month + 1) ≤ days_before_month d.year e.month :=
    days_before_month_mono d.year h
  refine d.yday_lt_month.trans_le (hle.trans ?_)
  rw [hyear]
  exact Nat.le_add_right _ _

theorem Date.yday_injective {d e : Date} (hyear : d.year = e.year) (h : d.yday = e.yday) :
    d = e := by
  have hmonth : d.month = e.month := by
    rcases lt_trichotomy d.month e.month with hlt | heq | hgt
    · exact absurd h (Date.yday_lt_yday hyear hlt).ne
    · exact heq
    · exact absurd h (Date.yday_lt_yday hyear.symm hgt).ne'
  have hday : d.day = e.day := by
    have h1 := d.pos
    have h2 := e.pos
    unfold Date.yday at h
    rw [hyear, hmonth] at h
    omega
  exact Date.ext hyear hmonth hday

theorem Date.number_injective : Function.Injective Date.number := by
  intro d e h
  have hyear : d.year = e.year := by
    rcases lt_trichotomy d.year e.year with hlt | heq | hgt
    · exact absurd h (Date.number_lt hlt).ne
    · exact heq
    · exact absurd h (Date.number_lt hgt).ne'
  apply Date.yday_injective hyear
  unfold Date.number at h
  rw [hyear] at h
  omega

/-! ## The day after -/

/-- The day after. -/
def Date.tomorrow (d : Date) : Date :=
  if hday : d.day < month_length d.year d.month then
    { d with day := d.day + 1, pos := Nat.le_add_left 1 d.day, le := hday }
  else if hmonth : d.month < 12 then
    { year := d.year
      month := d.month + 1
      day := 1
      pos := le_rfl
      le := month_length_pos d.year (Nat.le_add_left 1 d.month) hmonth }
  else
    { year := d.year + 1
      month := 1
      day := 1
      pos := le_rfl
      le := month_length_pos (d.year + 1) le_rfl (by decide) }

theorem Date.number_tomorrow (d : Date) : d.tomorrow.number = d.number + 1 := by
  have hpos := d.pos
  have hle := d.le
  unfold Date.tomorrow Date.number
  split
  · unfold Date.yday
    dsimp only
    omega
  · next hlast =>
    split
    · unfold Date.yday
      dsimp only
      rw [days_before_month]
      omega
    · next hdec =>
      have hdecember : d.month = 12 := by
        have := d.month_le
        omega
      have hyear := days_before_year_succ d.year
      unfold year_length at hyear
      rw [days_before_month] at hyear
      have hjanuary : days_before_month (d.year + 1) 1 = 0 := rfl
      unfold Date.yday
      dsimp only
      rw [hdecember] at hle hlast ⊢
      omega

theorem Date.number_days (d : Date) (n : ℕ) : (Date.tomorrow^[n] d).number = d.number + n := by
  induction n with
  | zero => simp
  | succ n ih =>
    rw [Function.iterate_succ_apply', Date.number_tomorrow, ih]
    push_cast
    omega

/-- Every later date comes. -/
theorem Date.days_eq {d e : Date} {n : ℕ} (h : e.number = d.number + n) :
    Date.tomorrow^[n] d = e := by
  apply Date.number_injective
  rw [Date.number_days, h]

/-! ## The date of a number -/

/-- The year of a day: the year that it has by the mean length of a year, or one beside it. -/
def year_at (n : ℤ) : ℤ :=
  let year := n * 400 / 146097 + 1
  if n < days_before_year year then year - 1
  else if days_before_year (year + 1) ≤ n then year + 1
  else year

theorem year_at_spec (n : ℤ) :
    days_before_year (year_at n) ≤ n ∧ n < days_before_year (year_at n + 1) := by
  unfold year_at
  dsimp only
  split
  · next h =>
    rw [sub_add_cancel]
    refine ⟨?_, h⟩
    unfold days_before_year
    omega
  · split
    · next h =>
      refine ⟨h, ?_⟩
      unfold days_before_year
      omega
    · next hlow hhigh => exact ⟨not_lt.mp hlow, not_le.mp hhigh⟩

/-- The month of a day of the year. -/
def month_at (year : ℤ) (k : ℕ) : ℕ :=
  Nat.findGreatest (fun month => days_before_month year month ≤ k) 12

theorem month_at_spec {year : ℤ} {k : ℕ} (h : k < year_length year) :
    days_before_month year (month_at year k) ≤ k
      ∧ k < days_before_month year (month_at year k + 1) := by
  constructor
  · have hjanuary : days_before_month year 1 ≤ k := Nat.zero_le k
    exact Nat.findGreatest_spec (P := fun month => days_before_month year month ≤ k)
      (show 1 ≤ 12 by decide) hjanuary
  · have hle : month_at year k ≤ 12 := Nat.findGreatest_le 12
    rcases hle.eq_or_lt with hlast | hlt
    · rw [hlast]
      exact h
    · exact not_le.mp (Nat.findGreatest_is_greatest
        (P := fun month => days_before_month year month ≤ k) (Nat.lt_succ_self _) hlt)

/-- The date with `k` days of its year in front of it. -/
def of_yday (year : ℤ) (k : ℕ) (h : k < year_length year) : Date where
  year := year
  month := month_at year k
  day := k - days_before_month year (month_at year k) + 1
  pos := Nat.le_add_left 1 _
  le := by
    have hspec := month_at_spec h
    rw [days_before_month] at hspec
    omega

theorem yday_of_yday {year : ℤ} {k : ℕ} (h : k < year_length year) :
    (of_yday year k h).yday = k := by
  have hspec := month_at_spec h
  unfold of_yday Date.yday
  dsimp only
  omega

theorem year_at_yday (n : ℤ) :
    (n - days_before_year (year_at n)).toNat < year_length (year_at n) := by
  have hspec := year_at_spec n
  rw [days_before_year_succ] at hspec
  omega

/-- The date of a day. -/
def Date.of_number (n : ℤ) : Date :=
  of_yday (year_at n) (n - days_before_year (year_at n)).toNat (year_at_yday n)

theorem Date.number_of_number (n : ℤ) : (Date.of_number n).number = n := by
  have hspec := year_at_spec n
  have hyday : (Date.of_number n).yday = (n - days_before_year (year_at n)).toNat :=
    yday_of_yday (year_at_yday n)
  have hyear : (Date.of_number n).year = year_at n := rfl
  unfold Date.number
  rw [hyday, hyear]
  omega

theorem Date.of_number_number (d : Date) : Date.of_number d.number = d :=
  Date.number_injective (Date.number_of_number d.number)

/-! ## The first day of some kind -/

/-- The first day of some kind is the one of the least number. -/
theorem isLeast_days {P : Date → Prop} {d e : Date} {n : ℕ} (h : e.number = d.number + n)
    (he : P e) (hfirst : ∀ f, P f → d.number ≤ f.number → e.number ≤ f.number) :
    IsLeast {k : ℕ | P (Date.tomorrow^[k] d)} n := by
  constructor
  · show P (Date.tomorrow^[n] d)
    rw [Date.days_eq h]
    exact he
  · intro k hk
    have hnum := Date.number_days d k
    have := hfirst _ hk (by omega)
    omega

end SysInC.Gregorian
