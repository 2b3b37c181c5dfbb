/-
# Instants and durations

`time.Time` values are instants, integers here: whole nanoseconds since 1 January of
year 1, UTC, so that the zero `Time` of the source, which `IsZero` tests for, is `0`.  The
readings of the daemon carry no monotonic part (`clock.Now` builds them from
`CLOCK_REALTIME`), and every comparison in the modelled code is a comparison of
instants.  Durations are nanoseconds as well; `Sub` saturates like the source's.
-/
import Mathlib.Tactic
import Carillon.Lib.Gregorian

namespace Carillon

/-! ## Durations -/

/-- `time.Second`. -/
def second : ℤ := 1000000000

/-- `time.Minute`. -/
def minute : ℤ := 60 * second

/-- `time.Hour`. -/
def hour : ℤ := 60 * minute

/-- Twenty-four hours. -/
def day : ℤ := 24 * hour

/-- The largest `time.Duration`, `1<<63 - 1` nanoseconds. -/
def maxDuration : ℤ := 2 ^ 63 - 1

/-- `t.Sub(u)`: the difference, saturated to the range of a `time.Duration`. -/
def sub (t u : ℤ) : ℤ := max (-2 ^ 63) (min maxDuration (t - u))

theorem day_pos : 0 < day := by decide

/-! ## Calendar dates -/

/-- The calendar date of an instant, in UTC. -/
def dateOf (t : ℤ) : Gregorian.Date := Gregorian.civil (t / day)

/-- Midnight UTC that begins the day with date `d`. -/
def midnight (d : Gregorian.Date) : ℤ := Gregorian.dayNumber d * day

/-- `t.AddDate(0, 0, days)` for an instant that is a midnight: the day of the
month is moved and the date normalised. -/
def addDays (t : ℤ) (days : ℤ) : ℤ :=
  midnight { dateOf t with day := (dateOf t).day + days }

/-- The UTC midnight that ends the day `t` falls in, as `notePendingLeap` computes
it: the date of `t` at zero hours, one day later. -/
def nextMidnight (t : ℤ) : ℤ := addDays (midnight (dateOf t)) 1

theorem midnight_date (t : ℤ) : midnight (dateOf t) = t / day * day := by
  rw [midnight, dateOf, Gregorian.dayNumber_civil]

/-- Moving the day of the month moves the day number. -/
theorem dayNumber_add_day (d : Gregorian.Date) (n : ℤ) :
    Gregorian.dayNumber { d with day := d.day + n } = Gregorian.dayNumber d + n := by
  unfold Gregorian.dayNumber
  split_ifs <;> ring

theorem nextMidnight_eq (t : ℤ) : nextMidnight t = (t / day + 1) * day := by
  have hd : dateOf (midnight (dateOf t)) = dateOf t := by
    rw [midnight_date, dateOf, Int.mul_ediv_cancel _ (ne_of_gt day_pos), ← dateOf]
  rw [nextMidnight, addDays, hd, midnight, dayNumber_add_day, dateOf, Gregorian.dayNumber_civil]

/-- The next midnight is the first one after the instant. -/
theorem lt_nextMidnight (t : ℤ) : t < nextMidnight t := by
  rw [nextMidnight_eq]
  have h₁ := Int.emod_add_mul_ediv t day
  have h₂ := Int.emod_lt_of_pos t day_pos
  have h₃ : (t / day + 1) * day = day * (t / day) + day := by ring
  omega

/-- A midnight at most a day ahead is the next midnight. -/
theorem nextMidnight_eq_of_window {t n : ℤ} (h₁ : n * day - day ≤ t)
    (h₂ : t < n * day) : nextMidnight t = n * day := by
  have hq : t / day = n - 1 := by
    rw [Int.ediv_eq_iff_of_pos day_pos]
    have h : (n - 1) * day = n * day - day := by ring
    omega
  rw [nextMidnight_eq, hq, sub_add_cancel]

/-! ## Leap boundaries -/

/-- Midnight UTC of 1 January or 1 July. -/
def IsLeapBoundary (t : ℤ) : Prop := ∃ y, t = midnight ⟨y, 1, 1⟩ ∨ t = midnight ⟨y, 7, 1⟩

/-- The last day of June or of December. -/
def isFinalDay (d : Gregorian.Date) : Bool :=
  (d.month == 6 && d.day == 30) || (d.month == 12 && d.day == 31)

/-- New Year follows 31 December. -/
theorem dayNumber_january (y : ℤ) :
    Gregorian.dayNumber ⟨y, 12, 31⟩ + 1 = Gregorian.dayNumber ⟨y + 1, 1, 1⟩ := by
  norm_num [Gregorian.dayNumber, Gregorian.daysBeforeMonth]
  ring

theorem dayNumber_july (y : ℤ) :
    Gregorian.dayNumber ⟨y, 6, 30⟩ + 1 = Gregorian.dayNumber ⟨y, 7, 1⟩ := by
  norm_num [Gregorian.dayNumber, Gregorian.daysBeforeMonth]
  ring

/-- The next midnight is a leap boundary exactly on a final day. -/
theorem isLeapBoundary_nextMidnight (t : ℤ) :
    IsLeapBoundary (nextMidnight t) ↔ isFinalDay (dateOf t) = true := by
  rw [nextMidnight_eq]
  constructor
  · -- the day before the boundary is a valid date, so it is the date of `t`
    have hdate : ∀ d : Gregorian.Date, d.Valid → t / day = Gregorian.dayNumber d →
        dateOf t = d := by
      intro d hd h
      rw [dateOf, h, Gregorian.civil_dayNumber hd]
    rintro ⟨y, h | h⟩ <;> rw [midnight] at h <;> have hq :=
      Int.eq_of_mul_eq_mul_right (ne_of_gt day_pos) h
    · have hy := dayNumber_january (y - 1)
      rw [sub_add_cancel] at hy
      rw [hdate ⟨y - 1, 12, 31⟩ (by simp [Gregorian.Date.Valid, Gregorian.daysIn]) (by omega)]
      rfl
    · have hy := dayNumber_july y
      rw [hdate ⟨y, 6, 30⟩ (by simp [Gregorian.Date.Valid, Gregorian.daysIn]) (by omega)]
      rfl
  · have hn : Gregorian.dayNumber (dateOf t) = t / day := Gregorian.dayNumber_civil _
    generalize dateOf t = d at hn ⊢
    obtain ⟨y, m, e⟩ := d
    simp only [isFinalDay, Bool.or_eq_true, Bool.and_eq_true, beq_iff_eq]
    rintro (⟨rfl, rfl⟩ | ⟨rfl, rfl⟩)
    · exact ⟨y, .inr (by rw [midnight, ← dayNumber_july, hn])⟩
    · exact ⟨y + 1, .inl (by rw [midnight, ← dayNumber_january, hn])⟩

end Carillon
