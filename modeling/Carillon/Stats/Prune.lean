/-
# Day directories and their pruning

A day directory is named after a UTC day.  `prune` walks over years, months and days: what it
removes lies in the directory of a day before the cutoff, or is a year or month directory that
holds nothing (`removes_prune`).
-/
import Carillon.Stats.Writer

namespace Carillon.Stats

open FileTree (Node Removes)
open Gregorian (Date dayNumber)

/-! ## The calendar -/

/-- Within 64 bits `time.Date` is midnight. -/
theorem dateTime_eq {d : Date} (hlo : -2 ^ 63 ≤ dayNumber d * 86400)
    (hhi : dayNumber d * 86400 < 2 ^ 63) : dateTime d = dayNumber d * day := by
  have hday : day = 86400 * second := by decide
  unfold dateTime
  rw [Int.bmod_eq_of_le (by omega) (by omega), hday, mul_assoc]

/-- A year of four digits is far from the ends of 64 bits. -/
theorem dateTime_of_valid {d : Date} (hd : d.Valid) (hyear : 0 ≤ d.year ∧ d.year < 10000) :
    dateTime d = dayNumber d * day := by
  have hrange : -1000 ≤ dayNumber d ∧ dayNumber d ≤ 4000000 := by
    have hle := hd.day_le
    obtain ⟨⟨m₁, m₂⟩, e₁, -⟩ := hd
    unfold dayNumber Gregorian.daysBeforeYear Gregorian.daysBeforeMonth
    split_ifs <;> omega
  exact dateTime_eq (by omega) (by omega)

/-- The cutoff, within 64 bits. -/
theorem cutoff_eq {keepDays : ℤ} {t : LocalTime} (hkeep : 0 < keepDays)
    (hpast : -2 ^ 63 ≤ (t.localDay - keepDays) * 86400) (hfuture : t.localDay * 86400 < 2 ^ 63) :
    cutoff keepDays t = (t.localDay - keepDays) * day := by
  have hnumber : dayNumber t.date = t.localDay := Gregorian.dayNumber_civil _
  have hmidnight : dateTime t.date = t.localDay * day := by
    rw [dateTime_eq (by rw [hnumber]; omega) (by rw [hnumber]; omega), hnumber]
  have hdate : dateOf (t.localDay * day) = t.date := by
    rw [dateOf, Int.mul_ediv_cancel _ (ne_of_gt day_pos)]
    rfl
  have hback : dayNumber { t.date with day := t.date.day + -keepDays } = t.localDay - keepDays := by
    rw [dayNumber_add_day, hnumber, sub_eq_add_neg]
  unfold cutoff addDate
  rw [hmidnight, hdate, dateTime_eq (by rw [hback]; omega) (by rw [hback]; omega), hback]

/-! ## The names -/

theorem digits_lt {s : Bytes} {n : ℕ} (h : Leap.digits s = some n) : n < 10 ^ s.length := by
  have hstep : ∀ (s : Bytes) (a : ℕ), s.foldlM (fun n b =>
      if 0x30 ≤ b ∧ b ≤ 0x39 then some (10 * n + (b.toNat - 0x30)) else none) a = some n →
      n < (a + 1) * 10 ^ s.length := by
    intro s
    induction s with
    | nil =>
      intro a h
      cases h
      rw [List.length_nil, pow_zero, mul_one]
      exact Nat.lt_succ_self n
    | cons b s ih =>
      intro a h
      rw [List.foldlM_cons] at h
      split_ifs at h with hb
      · have hdigit : b.toNat - 0x30 ≤ 9 := by
          have hle := UInt8.le_iff_toNat_le.mp hb.2
          have : (0x39 : UInt8).toNat = 57 := rfl
          omega
        have hlt := ih _ h
        calc n < (10 * a + (b.toNat - 0x30) + 1) * 10 ^ s.length := hlt
          _ ≤ ((a + 1) * 10) * 10 ^ s.length := Nat.mul_le_mul_right _ (by omega)
          _ = (a + 1) * 10 ^ (b :: s).length := by rw [List.length_cons, pow_succ]; ring
      · cases h
  have hlt := hstep s 0 h
  rwa [zero_add, one_mul] at hlt

/-- A date that is read from a name has a directory of its own. -/
theorem parseDate_some {s : Bytes} {d : Date} (h : parseDate s = some d) :
    d.Valid ∧ 0 ≤ d.year ∧ d.year < 10000 := by
  unfold parseDate at h
  split at h
  · split_ifs at h
    simp only [Option.bind_eq_bind, Option.bind_eq_some_iff] at h
    obtain ⟨y, hy, m, hm, e, he, h⟩ := h
    split_ifs at h with hvalid
    cases h
    have hlt := digits_lt hy
    simp at hlt
    refine ⟨hvalid, ?_, ?_⟩
    · exact Int.natCast_nonneg y
    · show (y : ℤ) < 10000
      omega
  · cases h

/-- The date of the day directory that a path leads into. -/
def dayOf : List Bytes → Option Date
  | y :: m :: d :: _ => if fourDigits y ∧ m.length = 2 ∧ d.length = 2 then dayName y m d else none
  | _ => none

/-- The date of a day directory is its midnight. -/
theorem dayOf_some {path : List Bytes} {d : Date} (h : dayOf path = some d) :
    dateTime d = dayNumber d * day := by
  unfold dayOf at h
  split at h
  · split_ifs at h
    obtain ⟨hvalid, hyear⟩ := parseDate_some h
    exact dateTime_of_valid hvalid hyear
  · cases h

/-! ## One call of `prune` -/

/-- The path of a year directory, or of a month directory in one. -/
def yearOrMonth : List Bytes → Bool
  | [y] => fourDigits y
  | [y, m] => fourDigits y && decide (m.length = 2)
  | _ => false

/-- Directories of years and months are above those of days. -/
theorem yearOrMonth_length {path : List Bytes} (h : yearOrMonth path = true) : path.length < 3 := by
  unfold yearOrMonth at h
  split at h
  · exact Nat.one_lt_succ_succ 1
  · exact Nat.lt_succ_self 2
  · cases h

/-- A year or month directory with nothing left in it. -/
structure Hollow (n : Node Bytes) (t : Archive) : Prop where
  isDir : n.isDir = true
  name : yearOrMonth n.path = true
  empty : ∀ m ∈ t, ∀ x, m.path ≠ n.path ++ [x]

/-- Why a node is removed: it lies in the directory of a day before the cutoff, or it is a
year or month directory with nothing left in it. -/
def Reason (cutoff : ℤ) (n : Node Bytes) (t : Archive) : Prop :=
  (∃ d, dayOf n.path = some d ∧ dateTime d < cutoff) ∨ Hollow n t

/-- What is hollow stays so when more is removed. -/
theorem Hollow.mono {n : Node Bytes} {t t' : Archive} (h : t' ⊆ t) (hn : Hollow n t) :
    Hollow n t' :=
  ⟨hn.isDir, hn.name, fun m hm => hn.empty m (h hm)⟩

/-- That reason, for what lies under a path. -/
def ReasonUnder (p : List Bytes) (cutoff : ℤ) (n : Node Bytes) (t : Archive) : Prop :=
  p <+: n.path ∧ Reason cutoff n t

theorem reasonUnder_mono {p : List Bytes} {cutoff : ℤ} (n : Node Bytes) (t t' : Archive)
    (h : t' ⊆ t) : ReasonUnder p cutoff n t → ReasonUnder p cutoff n t' :=
  And.imp_right (Or.imp_right (Hollow.mono h))

/-- A reason under a directory is one under its parents. -/
theorem removes_outer {p q : List Bytes} {cutoff : ℤ} {t t' : Archive}
    (h : Removes (ReasonUnder q cutoff) t t') (hpq : p <+: q) :
    Removes (ReasonUnder p cutoff) t t' :=
  h.imp fun _ => And.imp_left hpq.trans

section

variable {io : Faults} {cutoff : ℤ} {y m : Bytes} (t : Archive)

/-- An empty year or month directory goes. -/
theorem removes_removeIfEmpty {dir : List Bytes} (hdir : yearOrMonth dir = true) :
    Removes (ReasonUnder dir cutoff) t (removeIfEmpty io dir t) := by
  unfold removeIfEmpty
  split_ifs
  · exact FileTree.removes_refl t
  · exact FileTree.removes_removeEmpty fun hnone =>
      ⟨List.prefix_refl dir, .inr ⟨rfl, hdir, hnone⟩⟩

/-- A day is removed for its date only. -/
theorem removes_pruneDay (hy : fourDigits y = true) (hm : m.length = 2) (d : Bytes × Bool) :
    Removes (ReasonUnder [y, m, d.1] cutoff) t (pruneDay io cutoff y m t d) := by
  unfold pruneDay
  split_ifs with hskip
  · exact FileTree.removes_refl t
  · split
    · exact FileTree.removes_refl t
    · rename_i date hdate
      split_ifs with hbefore
      · refine FileTree.removes_removeAll fun n hn hunder => ⟨hunder, .inl ⟨date, ?_, hbefore⟩⟩
        obtain ⟨rest, hrest⟩ := hunder
        rw [not_or, ne_eq, not_not] at hskip
        rw [← hrest]
        exact (if_pos ⟨hy, hm, hskip.2⟩).trans hdate
      · exact FileTree.removes_refl t

/-- A month is removed with its days, or hollow. -/
theorem removes_pruneMonth (hy : fourDigits y = true) (m : Bytes × Bool) :
    Removes (ReasonUnder [y, m.1] cutoff) t (pruneMonth io cutoff y t m) := by
  unfold pruneMonth
  split_ifs with hskip hread
  · exact FileTree.removes_refl t
  · exact FileTree.removes_refl t
  · rw [not_or, ne_eq, not_not] at hskip
    refine (FileTree.removes_foldl reasonUnder_mono ?_ _ t).trans reasonUnder_mono
      (removes_removeIfEmpty _ (by simp [yearOrMonth, hy, hskip.2]))
    intro t d
    exact removes_outer (removes_pruneDay t hy hskip.2 d) ⟨[d.1], rfl⟩

/-- A year is removed with its months, or hollow. -/
theorem removes_pruneYear (y : Bytes × Bool) :
    Removes (ReasonUnder [y.1] cutoff) t (pruneYear io cutoff t y) := by
  unfold pruneYear
  split_ifs with hskip hread
  · exact FileTree.removes_refl t
  · exact FileTree.removes_refl t
  · rw [not_or, Bool.not_eq_false, Bool.not_eq_false] at hskip
    refine (FileTree.removes_foldl reasonUnder_mono ?_ _ t).trans reasonUnder_mono
      (removes_removeIfEmpty _ hskip.2)
    intro t m
    exact removes_outer (removes_pruneMonth t hskip.2 m) ⟨[m.1], rfl⟩

end

/-- **What `prune` removes.** -/
theorem removes_prune (io : Faults) (keepDays : ℤ) (at_ : LocalTime) (t : Archive) :
    Removes (Reason (cutoff keepDays at_)) t (prune io keepDays at_ t) := by
  unfold prune
  split_ifs
  · exact FileTree.removes_refl t
  · exact FileTree.removes_refl t
  · have hwalk : Removes (ReasonUnder [] (cutoff keepDays at_)) t
        ((FileTree.entries t []).foldl (pruneYear io (cutoff keepDays at_)) t) := by
      refine FileTree.removes_foldl reasonUnder_mono ?_ _ t
      intro t y
      exact removes_outer (removes_pruneYear t y) List.nil_prefix
    exact hwalk.imp fun _ => And.right

/-- Without a number of days to keep, nothing is removed. -/
theorem prune_keeps (io : Faults) {keepDays : ℤ} (h : keepDays ≤ 0) (at_ : LocalTime)
    (t : Archive) : prune io keepDays at_ t = t :=
  if_pos h

end Carillon.Stats
