/-
The reminders of `date/date.c`: the days that `list_important_dates` counts down.

A date that is over this year is counted to its place in this year, and a year is added. Next
year it is in the same place unless a 29th of February comes or goes in front of it: for a date
behind February, with a leap year on either side, the countdown is a day off (`countdown_iff`).
-/
import SysInC.Gregorian
import SysInC.SimplehostRange

set_option autoImplicit false

namespace SysInC.DateReminders

open SysInC.Gregorian
open CString (text_of)
open CText (fgets)
open Httpget (scan_number)
open SimplehostRange (behind_number to_lld)

/-! ## The C library -/

/-- The fields of `struct tm` that are set or read. -/
structure tm where
  tm_mday : ℤ
  tm_mon : ℤ
  tm_year : ℤ
  tm_yday : ℤ

/-- `localtime` on a day. -/
def localtime (d : Date) : tm where
  tm_mday := d.day
  tm_mon := d.month - 1
  tm_year := d.year - 1900
  tm_yday := d.yday

/-- The day that the fields give, which may be outside of their ranges. -/
def tm.number (t : tm) : ℤ :=
  let months := t.tm_year * 12 + t.tm_mon
  let year := months / 12 + 1900
  days_before_year year + days_before_month year (months % 12 + 1).toNat + (t.tm_mday - 1)

/-- `mktime`, which brings the fields into their ranges and finds `tm_yday`. -/
def mktime (t : tm) : tm := localtime (Date.of_number t.number)

/-- `%d`: what `strtol` finds, of which an `int` keeps the low 32 bits, and what is left behind
it. -/
def scan_int (s : List UInt8) : Option (ℤ × List UInt8) :=
  (scan_number s).map fun v => (Int.bmod (to_lld v) (2 ^ 32), behind_number s)

/-- `sscanf(date_str, "%d/%d/%d", &d, &m, &y) == 3` -/
def scan_date (date_str : List UInt8) : Option (ℤ × ℤ × ℤ) :=
  match scan_int date_str with
  | some (d, 47 :: rest) =>
    match scan_int rest with
    | some (m, 47 :: rest) => (scan_int rest).map fun (y, _) => (d, m, y)
    | _ => none
  | _ => none

/-! ## The source -/

def is_leap_year (y : ℤ) : Bool :=
  (y.tmod 4 == 0 && y.tmod 100 != 0) || y.tmod 400 == 0

/-- `days_diff` -/
def days_to (now_tm : tm) (d m : ℤ) : ℤ :=
  let cur_year := now_tm.tm_year + 1900
  let target_tm := mktime
    { tm_mday := d, tm_mon := m - 1, tm_year := cur_year - 1900, tm_yday := 0 }
  let days_diff := target_tm.tm_yday - now_tm.tm_yday
  -- the source calls `mktime` for the next year here, and does not read what it finds
  if days_diff < 0 then days_diff + (if is_leap_year cur_year then 366 else 365) else days_diff

/-- The last column. -/
inductive status where
  | hoje
  | amanha
  /-- `Faltam %d dias`, in the colour of a warning or not. -/
  | faltam (warn : Bool) (days_diff : ℤ)
  deriving DecidableEq

/-- The days that a status reports. -/
def status.days : status → ℤ
  | hoje => 0
  | amanha => 1
  | faltam _ days_diff => days_diff

def status_of (days_diff : ℤ) : status :=
  if days_diff = 0 then .hoje
  else if days_diff = 1 then .amanha
  else .faltam (days_diff ≤ 30) days_diff

/-- A line of the table. -/
structure row where
  name : List UInt8
  d : ℤ
  m : ℤ
  y : ℤ
  status : status
  deriving DecidableEq

/-- What is printed for a line of the file; `none` is `continue`. -/
def row_of (now_tm : tm) (line : List UInt8) : Option row :=
  let line := (text_of line).takeWhile fun c => c ≠ 13 ∧ c ≠ 10
  if 124 ∈ line then
    (scan_date (line.takeWhile (· ≠ 124))).map fun (d, m, y) =>
      { -- `%-32.32s`
        name := (((line.dropWhile (· ≠ 124)).tail).take 32).rightpad 32 32
        d := d
        m := m
        y := y
        status := status_of (days_to now_tm d m) }
  else none

/-- The loop over the lines of the file. -/
def list_lines (now_tm : tm) (file : List UInt8) : List row :=
  if _h : file = [] then []
  else
    let r := fgets 256 file
    (row_of now_tm r.1).toList ++ list_lines now_tm r.2
termination_by file.length
decreasing_by
  have := List.length_pos_iff.mpr _h
  simp only [fgets, List.length_drop]
  omega

/-- The rows of the table; `none` where the file does not open, and there is no table. Without a row
it says that no date is stored. -/
def list_important_dates (today : Date) (fp : Option (List UInt8)) : Option (List row) :=
  fp.map (list_lines (localtime today))

/-! ## The next occurrence -/

/-- A day and a month as they are stored. -/
def On (e : Date) (d m : ℤ) : Prop := (e.day : ℤ) = d ∧ (e.month : ℤ) = m

/-- There is such a day in a year. -/
def InYear (year d m : ℤ) : Prop := ∃ e : Date, e.year = year ∧ On e d m

/-- Counting from today on, the first day with that day and month comes after `days` days. -/
def Countdown (today : Date) (d m days : ℤ) : Prop :=
  ∃ n : ℕ, days = n ∧ IsLeast {k : ℕ | On (Date.tomorrow^[k] today) d m} n

/-- The day and month are over in the year of `today`. -/
def Over (today : Date) (d m : ℤ) : Prop :=
  m < today.month ∨ (m = today.month ∧ d < today.day)

variable {today e e' : Date} {d m : ℤ}

theorem On.eq_of_year {f : Date} (he : On e d m) (hf : On f d m) (hyear : e.year = f.year) :
    e = f := by
  have hmonth : e.month = f.month := by exact_mod_cast he.2.trans hf.2.symm
  have hday : e.day = f.day := by exact_mod_cast he.1.trans hf.1.symm
  exact Date.ext hyear hmonth hday

theorem over_iff (hyear : e.year = today.year) (he : On e d m) :
    Over today d m ↔ e.yday < today.yday := by
  obtain ⟨rfl, rfl⟩ := he
  have hpos := e.pos
  unfold Over
  rcases lt_trichotomy e.month today.month with hlt | heq | hgt
  · have := Date.yday_lt_yday hyear hlt
    exact iff_of_true (Or.inl (by exact_mod_cast hlt)) this
  · unfold Date.yday
    rw [hyear, heq]
    omega
  · have := Date.yday_lt_yday hyear.symm hgt
    omega

theorem number_sub (hyear : e.year = today.year) :
    e.number = today.number + ((e.yday : ℤ) - today.yday) := by
  unfold Date.number
  rw [hyear]
  omega

theorem number_sub_next (hyear : e.year = today.year + 1) :
    e.number = today.number + ((e.yday : ℤ) + year_length today.year - today.yday) := by
  unfold Date.number
  rw [hyear, days_before_year_succ]
  omega

/-- No day from today on is in a year that is over. -/
theorem year_le {f : Date} (h : today.number ≤ f.number) : today.year ≤ f.year := by
  by_contra hlt
  exact absurd (Date.number_lt (not_le.mp hlt)) (not_lt.mpr h)

theorem countdown_this_year (hyear : e.year = today.year) (he : On e d m)
    (hle : today.yday ≤ e.yday) : Countdown today d m ((e.yday : ℤ) - today.yday) := by
  refine ⟨e.yday - today.yday, by omega, ?_⟩
  apply isLeast_days (P := fun f => On f d m) (e := e)
  · rw [number_sub hyear]
    omega
  · exact he
  · intro f hf hfrom
    rcases (year_le hfrom).eq_or_lt with heq | hlt
    · rw [he.eq_of_year hf (hyear.trans heq)]
    · exact (Date.number_lt (hyear.trans_lt hlt)).le

theorem countdown_next_year (hyear : e.year = today.year) (he : On e d m)
    (hlt : e.yday < today.yday) (hyear' : e'.year = today.year + 1) (he' : On e' d m) :
    Countdown today d m ((e'.yday : ℤ) + year_length today.year - today.yday) := by
  have hlast := today.yday_lt
  refine ⟨e'.yday + year_length today.year - today.yday, by omega, ?_⟩
  apply isLeast_days (P := fun f => On f d m) (e := e')
  · rw [number_sub_next hyear']
    omega
  · exact he'
  · intro f hf hfrom
    -- the day of this year is over
    have hnot : today.year ≠ f.year := by
      intro heq
      have hsame := he.eq_of_year hf (hyear.trans heq)
      have hsub := number_sub hyear
      rw [hsame] at hlt hsub
      omega
    rcases (Int.add_one_le_of_lt (lt_of_le_of_ne (year_le hfrom) hnot)).eq_or_lt with heq | hgt
    · rw [he'.eq_of_year hf (hyear'.trans heq)]
    · exact (Date.number_lt (hyear'.trans_lt hgt)).le

theorem Countdown.unique {a b : ℤ} (ha : Countdown today d m a) (hb : Countdown today d m b) :
    a = b := by
  obtain ⟨n, rfl, hn⟩ := ha
  obtain ⟨k, rfl, hk⟩ := hb
  rw [hn.unique hk]

/-- The places of a day in two years. -/
theorem yday_eq_iff (hyear : e'.year = e.year + 1) (hon : On e d m) (hon' : On e' d m) :
    e.yday = e'.yday ↔ ¬(2 < m ∧ (Leap e.year ∨ Leap (e.year + 1))) := by
  obtain ⟨rfl, rfl⟩ := hon
  have hday : e'.day = e.day := by exact_mod_cast hon'.1
  have hmonth : e'.month = e.month := by exact_mod_cast hon'.2
  unfold Date.yday
  rw [hyear, hday, hmonth, Nat.add_right_cancel_iff]
  rcases Nat.lt_or_ge 2 e.month with hbehind | hfront
  · by_cases hleap : Leap e.year
    · rw [days_before_month_leap hleap (not_leap_succ hleap) hbehind]
      exact iff_of_false (Nat.succ_ne_self _) (not_not.mpr ⟨by omega, Or.inl hleap⟩)
    · by_cases hnext : Leap (e.year + 1)
      · rw [days_before_month_leap hnext hleap hbehind]
        exact iff_of_false (Nat.succ_ne_self _).symm (not_not.mpr ⟨by omega, Or.inr hnext⟩)
      · rw [days_before_month_congr (iff_of_false hleap hnext)]
        simp [hleap, hnext]
  · rw [days_before_month_front _ hfront, days_before_month_front _ hfront]
    omega

/-! ## The countdown -/

theorem is_leap_year_iff (y : ℤ) : is_leap_year y = true ↔ Leap y := by
  have hdvd (k : ℤ) : y.tmod k = 0 ↔ k ∣ y := (Int.dvd_iff_tmod_eq_zero).symm
  unfold is_leap_year Leap
  simp only [Bool.or_eq_true, Bool.and_eq_true, beq_iff_eq, bne_iff_ne, ne_eq, hdvd]
  omega

theorem year_days (y : ℤ) : (if is_leap_year y then 366 else 365 : ℤ) = year_length y := by
  rw [year_length_eq]
  simp only [is_leap_year_iff]
  split
  · rfl
  · rfl

/-- A date of the calendar is found as it is. -/
theorem mktime_yday (e : Date) (k : ℤ) :
    (mktime ⟨e.day, e.month - 1, e.year - 1900, k⟩).tm_yday = e.yday := by
  have hmonth := e.month_le
  have hpos := e.pos
  have hyear : ((e.year - 1900) * 12 + ((e.month : ℤ) - 1)) / 12 + 1900 = e.year := by omega
  have hmod : (((e.year - 1900) * 12 + ((e.month : ℤ) - 1)) % 12 + 1).toNat = e.month := by omega
  have hnum : tm.number ⟨e.day, e.month - 1, e.year - 1900, k⟩ = e.number := by
    unfold tm.number Date.number Date.yday
    dsimp only
    rw [hyear, hmod]
    omega
  unfold mktime
  rw [hnum, Date.of_number_number]
  rfl

theorem days_to_eq (hyear : e.year = today.year) (he : On e d m) :
    days_to (localtime today) d m
      = if e.yday < today.yday then (e.yday : ℤ) + year_length today.year - today.yday
        else (e.yday : ℤ) - today.yday := by
  obtain ⟨rfl, rfl⟩ := he
  have hcur : (localtime today).tm_year + 1900 = e.year := by
    rw [hyear]
    exact sub_add_cancel _ _
  have hyday : (localtime today).tm_yday = today.yday := rfl
  unfold days_to
  dsimp only
  rw [hcur, mktime_yday, hyday, year_days, hyear]
  split
  · rw [if_pos (by omega)]
    omega
  · rw [if_neg (by omega)]

theorem days_to_iff (hyear : e.year = today.year) (he : On e d m)
    (hyear' : e'.year = today.year + 1) (he' : On e' d m) :
    Countdown today d m (days_to (localtime today) d m)
      ↔ ¬(Over today d m ∧ 2 < m ∧ (Leap today.year ∨ Leap (today.year + 1))) := by
  rw [days_to_eq hyear he, over_iff hyear he]
  have hplaces := yday_eq_iff (hyear ▸ hyear') he he'
  rw [hyear] at hplaces
  by_cases hover : e.yday < today.yday
  · rw [if_pos hover, iff_true_intro hover, true_and, ← hplaces]
    have hnext := countdown_next_year hyear he hover hyear' he'
    constructor
    · intro hcount
      have := hcount.unique hnext
      omega
    · intro heq
      rw [heq]
      exact hnext
  · rw [if_neg hover]
    exact iff_of_true (countdown_this_year hyear he (not_lt.mp hover)) fun h => hover h.1

theorem status_of_days (k : ℤ) : (status_of k).days = k := by
  unfold status_of
  split
  · next h => exact h.symm
  · split
    · next h => exact h.symm
    · rfl

theorem row_of_status {now_tm : tm} {line : List UInt8} {r : row}
    (h : row_of now_tm line = some r) :
    r.status.days = days_to now_tm r.d r.m := by
  unfold row_of at h
  dsimp only at h
  split at h
  · obtain ⟨⟨d, m, y⟩, -, rfl⟩ := Option.map_eq_some_iff.mp h
    exact status_of_days _
  · cases h

theorem list_lines_status {now_tm : tm} {file : List UInt8} {r : row}
    (h : r ∈ list_lines now_tm file) : r.status.days = days_to now_tm r.d r.m := by
  fun_induction list_lines now_tm file with
  | case1 => cases h
  | case2 file hfile read ih =>
    rcases List.mem_append.mp h with hrow | hrest
    · exact row_of_status (Option.mem_toList.mp hrow)
    · exact ih hrest

/-- **The countdown**: for a day and month that are in this year and in the next, the days reported
are those to the next such date, unless the date is over, lies behind February, and this year or the
next is a leap year. -/
theorem countdown_iff (today : Date) (fp : Option (List UInt8)) {rows : List row}
    (hrows : list_important_dates today fp = some rows) {r : row} (hr : r ∈ rows)
    (hthis : InYear today.year r.d r.m) (hnext : InYear (today.year + 1) r.d r.m) :
    Countdown today r.d r.m r.status.days
      ↔ ¬(Over today r.d r.m ∧ 2 < r.m ∧ (Leap today.year ∨ Leap (today.year + 1))) := by
  obtain ⟨file, rfl, rfl⟩ := Option.map_eq_some_iff.mp hrows
  obtain ⟨e, hyear, he⟩ := hthis
  obtain ⟨e', hyear', he'⟩ := hnext
  rw [list_lines_status hr]
  exact days_to_iff hyear he hyear' he'

theorem fgets_line {size : ℕ} {line : List UInt8} (hbreak : 10 ∉ line)
    (hshort : line.length + 1 < size) : fgets size (line ++ [10]) = (line ++ [10], []) := by
  have htake : (line ++ [10]).takeWhile (fun c => decide (c ≠ 10)) = line :=
    Delimited.takeWhile_append_cons hbreak []
  have hmin : min (size - 1) (line.length + 1) = (line ++ [10]).length := by
    rw [List.length_append, List.length_singleton]
    omega
  unfold fgets
  dsimp only
  rw [htake, hmin, List.take_length, List.drop_length]

theorem list_lines_line (now_tm : tm) {line : List UInt8} (hbreak : 10 ∉ line)
    (hshort : line.length < 255) :
    list_lines now_tm (line ++ [10]) = (row_of now_tm (line ++ [10])).toList := by
  have hnil : list_lines now_tm [] = [] := by
    rw [list_lines, dif_pos rfl]
  have hne : line ++ [10] ≠ [] := List.append_ne_nil_of_right_ne_nil line (List.cons_ne_nil 10 [])
  rw [list_lines, dif_neg hne, fgets_line hbreak (Nat.succ_lt_succ hshort)]
  dsimp only
  rw [hnil, List.append_nil]

/-- 10/10/2025 -/
def autumn : Date := ⟨2025, 10, 10, by decide, by decide⟩

/-- 31/12/2024 -/
def new_year_eve : Date := ⟨2024, 12, 31, by decide, by decide⟩

def line_april : List UInt8 := CText.literal "15/04/2005|Aniversario da Samara"

def row_april : row :=
  ⟨CText.literal "Aniversario da Samara           ", 15, 4, 2005, .faltam false 187⟩

theorem list_april :
    list_important_dates autumn (some (line_april ++ [10])) = some [row_april] := by
  show some (list_lines _ _) = _
  rw [list_lines_line _ (by decide) (by decide)]
  decide

theorem in_year_april (year : ℤ) : InYear year 15 4 :=
  ⟨⟨year, 4, 15, by decide, show 15 ≤ 30 by decide⟩, rfl, rfl, rfl⟩

theorem countdown_april : Countdown autumn 15 4 187 :=
  (countdown_iff autumn (some (line_april ++ [10])) list_april (List.mem_singleton_self row_april)
    (in_year_april _) (in_year_april _)).mpr fun h => absurd h.2.2 (by decide)

def line_march : List UInt8 := CText.literal "01/03/2000|Escola"

def row_march : row :=
  ⟨CText.literal "Escola                          ", 1, 3, 2000, .faltam false 61⟩

theorem list_march :
    list_important_dates new_year_eve (some (line_march ++ [10])) = some [row_march] := by
  show some (list_lines _ _) = _
  rw [list_lines_line _ (by decide) (by decide)]
  decide

theorem in_year_march (year : ℤ) : InYear year 1 3 :=
  ⟨⟨year, 3, 1, by decide, show 1 ≤ 31 by decide⟩, rfl, rfl, rfl⟩

/-- From the last day of 2024 the first of March is 60 days away, and 61 are reported. -/
theorem not_countdown_march :
    ¬∀ (today : Date) (fp : Option (List UInt8)) (rows : List row),
      list_important_dates today fp = some rows → ∀ r ∈ rows,
        InYear today.year r.d r.m → InYear (today.year + 1) r.d r.m →
          Countdown today r.d r.m r.status.days := by
  intro h
  obtain ⟨n, hn, hleast⟩ := h new_year_eve _ _ list_march row_march (List.mem_singleton_self _)
    (in_year_march _) (in_year_march _)
  have h60 : On (Date.tomorrow^[60] new_year_eve) 1 3 := by
    unfold On
    decide +kernel
  have hle := hleast.2 h60
  have h61 : row_march.status.days = 61 := rfl
  omega

end SysInC.DateReminders
