/-
# The proleptic Gregorian calendar

Days are numbered from 1 January of year 1 (day `0`); dates are year, month and
day.  `civil` splits a day number with the usual cycles of 400, 100 and 4 years,
`dayNumber` puts it together again, and the two are inverse to each other on the
dates that exist:

* `dayNumber_civil` : `dayNumber (civil n) = n`;
* `civil_dayNumber` : `civil (dayNumber d) = d` for a valid date `d`.
-/
import Mathlib.Tactic

namespace Gregorian

/-- A calendar date.  Months and days count from one. -/
@[ext] structure Date where
  year : ℤ
  month : ℤ
  day : ℤ
  deriving DecidableEq, Repr

/-! ## Years -/

/-- Divisible by four, and by 400 when it ends a century. -/
def isLeap (y : ℤ) : Bool := y % 4 == 0 && (y % 100 != 0 || y % 400 == 0)

/-- Days from 1 January of year 1 to 1 January of year `y`. -/
def daysBeforeYear (y : ℤ) : ℤ := 365 * (y - 1) + (y - 1) / 4 - (y - 1) / 100 + (y - 1) / 400

/-- The year that day `n` falls in. -/
def yearOf (n : ℤ) : ℤ :=
  let c := n / 146097
  let r := n - 146097 * c
  let h := r / 36524 - r / 36524 / 4
  let r := r - 36524 * h
  let q := r / 1461
  let r := r - 1461 * q
  let s := r / 365 - r / 365 / 4
  400 * c + 100 * h + 4 * q + s + 1

/-- One year is 365 days, and 366 in a leap year. -/
theorem daysBeforeYear_succ (y : ℤ) :
    daysBeforeYear (y + 1) = daysBeforeYear y + if isLeap y then 366 else 365 := by
  have h₄ : y / 4 = (y - 1) / 4 + if y % 4 = 0 then 1 else 0 := by split_ifs <;> omega
  have h₁ : y / 100 = (y - 1) / 100 + if y % 100 = 0 then 1 else 0 := by split_ifs <;> omega
  have h₀ : y / 400 = (y - 1) / 400 + if y % 400 = 0 then 1 else 0 := by split_ifs <;> omega
  have hy : y + 1 - 1 = y := by omega
  simp only [daysBeforeYear, isLeap, hy, h₄, h₁, h₀, Bool.and_eq_true, Bool.or_eq_true, bne_iff_ne,
    beq_iff_eq]
  split_ifs <;> omega

/-- The leap days before a year, in the cycles that `yearOf` counts. -/
theorem daysBeforeYear_cycles (c h q s : ℤ) (hh : 0 ≤ h ∧ h ≤ 3) (hq : 0 ≤ q ∧ q ≤ 24)
    (hs : 0 ≤ s ∧ s ≤ 3) :
    daysBeforeYear (400 * c + 100 * h + 4 * q + s + 1)
      = 146097 * c + 36524 * h + 1461 * q + 365 * s := by
  unfold daysBeforeYear
  have h₄ : (400 * c + 100 * h + 4 * q + s + 1 - 1) / 4 = 100 * c + 25 * h + q := by omega
  have h₁ : (400 * c + 100 * h + 4 * q + s + 1 - 1) / 100 = 4 * c + h := by omega
  have h₀ : (400 * c + 100 * h + 4 * q + s + 1 - 1) / 400 = c := by omega
  rw [h₄, h₁, h₀]
  ring

/-- Which years of the cycles are leap years. -/
theorem isLeap_cycles (c h q s : ℤ) (hh : 0 ≤ h ∧ h ≤ 3) (hq : 0 ≤ q ∧ q ≤ 24)
    (hs : 0 ≤ s ∧ s ≤ 3) :
    isLeap (400 * c + 100 * h + 4 * q + s + 1) = true ↔ s = 3 ∧ (q ≠ 24 ∨ h = 3) := by
  simp only [isLeap, Bool.and_eq_true, Bool.or_eq_true, bne_iff_ne, beq_iff_eq]
  omega

/-- Day `n` falls in the year `yearOf n`. -/
theorem yearOf_bounds (n : ℤ) :
    daysBeforeYear (yearOf n) ≤ n ∧ n < daysBeforeYear (yearOf n + 1) := by
  -- the cycle counts of `yearOf`, from the longest cycle to the shortest
  obtain ⟨c, hc⟩ : ∃ c, c = n / 146097 := ⟨_, rfl⟩
  obtain ⟨r, hr⟩ : ∃ r, r = n - 146097 * c := ⟨_, rfl⟩
  obtain ⟨h, hh⟩ : ∃ h, h = r / 36524 - r / 36524 / 4 := ⟨_, rfl⟩
  obtain ⟨r₁, hr₁⟩ : ∃ r₁, r₁ = r - 36524 * h := ⟨_, rfl⟩
  obtain ⟨q, hq⟩ : ∃ q, q = r₁ / 1461 := ⟨_, rfl⟩
  obtain ⟨r₂, hr₂⟩ : ∃ r₂, r₂ = r₁ - 1461 * q := ⟨_, rfl⟩
  obtain ⟨s, hs⟩ : ∃ s, s = r₂ / 365 - r₂ / 365 / 4 := ⟨_, rfl⟩
  have hy : yearOf n = 400 * c + 100 * h + 4 * q + s + 1 := by
    subst hs hr₂ hq hr₁ hh hr hc
    rfl
  have bh : 0 ≤ h ∧ h ≤ 3 := by omega
  have bq : 0 ≤ q ∧ q ≤ 24 := by omega
  have bs : 0 ≤ s ∧ s ≤ 3 := by omega
  rw [daysBeforeYear_succ, hy, daysBeforeYear_cycles c h q s bh bq bs]
  by_cases hl : s = 3 ∧ (q ≠ 24 ∨ h = 3)
  · rw [if_pos ((isLeap_cycles c h q s bh bq bs).mpr hl)]
    omega
  · rw [if_neg (fun hl' => hl ((isLeap_cycles c h q s bh bq bs).mp hl'))]
    omega

theorem daysBeforeYear_lt {y z : ℤ} (h : y < z) : daysBeforeYear y < daysBeforeYear z := by
  unfold daysBeforeYear
  omega

/-- A day between two New Years falls in the year they bound. -/
theorem yearOf_eq {n y : ℤ} (h₁ : daysBeforeYear y ≤ n) (h₂ : n < daysBeforeYear (y + 1)) :
    yearOf n = y := by
  obtain ⟨b₁, b₂⟩ := yearOf_bounds n
  rcases lt_trichotomy (yearOf n) y with hlt | heq | hgt
  · rcases eq_or_lt_of_le (Int.add_one_le_of_lt hlt) with he | hl
    · rw [he] at b₂; omega
    · have := daysBeforeYear_lt hl; omega
  · exact heq
  · rcases eq_or_lt_of_le (Int.add_one_le_of_lt hgt) with he | hl
    · rw [← he] at b₁; omega
    · have := daysBeforeYear_lt hl; omega

/-- The day that a leap year has more. -/
def leapDay (y : ℤ) : ℤ := if isLeap y then 1 else 0

theorem leapDay_range (y : ℤ) : 0 ≤ leapDay y ∧ leapDay y ≤ 1 := by
  unfold leapDay
  split_ifs <;> omega

/-- The length of a year. -/
theorem daysBeforeYear_add (y : ℤ) :
    daysBeforeYear (y + 1) = daysBeforeYear y + 365 + leapDay y := by
  rw [daysBeforeYear_succ]
  unfold leapDay
  split_ifs <;> ring

/-! ## Dates

Inside a date the year is counted from 1 March, so that the leap day is its last
day and the months before a day are a linear function of the day; 1 March of
year 0 is day `-306`.  A year counted this way that ends in February of `y` is
the year `y` of `daysBeforeYear`. -/

/-- Days of the March year before its `p`-th month. -/
def daysBeforeMonth (p : ℤ) : ℤ := (153 * p + 2) / 5

/-- The month that day `k` of the March year falls in. -/
def monthOf (k : ℤ) : ℤ := (5 * k + 2) / 153

/-- The date of day `n`. -/
def civil (n : ℤ) : Date :=
  let y := yearOf (n + 306)
  let k := n + 306 - daysBeforeYear y
  let p := monthOf k
  let d := k - daysBeforeMonth p + 1
  if p < 10 then ⟨y - 1, p + 3, d⟩ else ⟨y, p - 9, d⟩

/-- The number of the day with date `d`. -/
def dayNumber (d : Date) : ℤ :=
  if d.month ≤ 2 then daysBeforeYear d.year + daysBeforeMonth (d.month + 9) + (d.day - 1) - 306
  else daysBeforeYear (d.year + 1) + daysBeforeMonth (d.month - 3) + (d.day - 1) - 306

/-- The number of days of a month. -/
def daysIn (y m : ℤ) : ℤ :=
  if m = 2 then 28 + leapDay y else if m = 4 ∨ m = 6 ∨ m = 9 ∨ m = 11 then 30 else 31

/-- A date that the calendar has. -/
def Date.Valid (d : Date) : Prop :=
  (1 ≤ d.month ∧ d.month ≤ 12) ∧ 1 ≤ d.day ∧ d.day ≤ daysIn d.year d.month

instance (d : Date) : Decidable d.Valid := by unfold Date.Valid; infer_instance

theorem Date.Valid.day_le {d : Date} (h : d.Valid) : d.day ≤ 31 := by
  have hle := h.2.2
  have hleap := leapDay_range d.year
  unfold daysIn at hle
  split_ifs at hle <;> omega

/-- Splitting a day number and putting it together again gives it back. -/
theorem dayNumber_civil (n : ℤ) : dayNumber (civil n) = n := by
  obtain ⟨b₁, b₂⟩ := yearOf_bounds (n + 306)
  obtain ⟨l₁, l₂⟩ := leapDay_range (yearOf (n + 306))
  rw [daysBeforeYear_add] at b₂
  simp only [civil]
  have hp : monthOf (n + 306 - daysBeforeYear (yearOf (n + 306))) ≤ 11 := by
    unfold monthOf; omega
  have hp₀ : 0 ≤ monthOf (n + 306 - daysBeforeYear (yearOf (n + 306))) := by
    unfold monthOf; omega
  split_ifs with h
  · rw [dayNumber, if_neg (by dsimp only; omega)]
    simp only [sub_add_cancel, add_sub_cancel_right]
    ring
  · rw [dayNumber, if_pos (by dsimp only; omega)]
    simp only [sub_add_cancel]
    ring

/-- The March year of a day and the day in it give the date. -/
theorem civil_eq {n y k p : ℤ} (hn : n = daysBeforeYear y + k - 306)
    (hk : 0 ≤ k ∧ k < 365 + leapDay y) (hp : monthOf k = p) :
    civil n = if p < 10 then ⟨y - 1, p + 3, k - daysBeforeMonth p + 1⟩
      else ⟨y, p - 9, k - daysBeforeMonth p + 1⟩ := by
  have hy : yearOf (n + 306) = y := by
    apply yearOf_eq
    · omega
    · rw [daysBeforeYear_add]; omega
  have hk' : n + 306 - daysBeforeYear y = k := by omega
  simp only [civil, hy, hk', hp]

/-- A valid date is the date of its day. -/
theorem civil_dayNumber {d : Date} (hd : d.Valid) : civil (dayNumber d) = d := by
  obtain ⟨y, m, e⟩ := d
  obtain ⟨⟨m₁, m₂⟩, e₁, e₂⟩ := hd
  simp only [daysIn] at m₁ m₂ e₁ e₂
  have l₀ := leapDay_range y
  have l₁ := leapDay_range (y + 1)
  by_cases hm : m ≤ 2
  · -- January and February end the March year that is numbered like the date
    have hb : daysBeforeMonth (m + 9) + (e - 1) < 365 + leapDay y ∧
        monthOf (daysBeforeMonth (m + 9) + (e - 1)) = m + 9 := by
      unfold daysBeforeMonth monthOf
      split_ifs at e₂ <;> omega
    rw [civil_eq (y := y) (k := daysBeforeMonth (m + 9) + (e - 1)) (p := m + 9)
      (by rw [dayNumber, if_pos hm]; ring) ⟨by unfold daysBeforeMonth; omega, hb.1⟩ hb.2,
      if_neg (by omega)]
    ext <;> simp
  · have hb : daysBeforeMonth (m - 3) + (e - 1) < 365 ∧
        monthOf (daysBeforeMonth (m - 3) + (e - 1)) = m - 3 := by
      unfold daysBeforeMonth monthOf
      interval_cases m <;> simp at hm e₂ <;> omega
    rw [civil_eq (y := y + 1) (k := daysBeforeMonth (m - 3) + (e - 1)) (p := m - 3)
      (by rw [dayNumber, if_neg hm]; ring) ⟨by unfold daysBeforeMonth; omega, by omega⟩ hb.2,
      if_pos (by omega)]
    ext <;> simp

end Gregorian
