/-
# What the retention removes

The day directories are named after UTC days, but the cutoff is counted from the calendar date
that the horizon has in its own location.  Where that date is ahead of the UTC date, in the
evening of UTC in every zone to the east, a day goes that `keep_days` should keep; and a
`keep_days` that reaches back for more than 64 bits of seconds wraps to a cutoff in the future.
Apart from these two (`InStep`), the retention removes what it should and nothing else.
-/
import Carillon.Lib.Runs
import Carillon.Stats.Prune

namespace Carillon.Stats

open FileTree (Node)
open Gregorian (Date dayNumber)

/-! ## One step of the recorder -/

/-- The row opens a file, so that the archive is pruned. -/
def Recorder.reopens (io : Faults) (r : Recorder) (kind : Bytes) (at_ : ℤ) : Bool :=
  match r.files.lookup kind with
  | none => true
  | some old => old ≠ formatDate (dateOf at_) && !io.close

/-- The archive that a step finds, with the directory that it makes for its own row. -/
def Recorder.found (r : Recorder) : Event → Archive
  | .row io kind at_ => if r.reopens io kind at_ then r.made io (dateOf at_) else r.archive
  | _ => r.archive

section

variable {r : Recorder} {io : Faults} {kind : Bytes} {d : Date} {at_ : ℤ} {n : Node Bytes}

/-- Pruning leaves the settings of the recorder. -/
theorem pruneTrusted_frame (io : Faults) (r : Recorder) :
    (r.pruneTrusted io).keepDays = r.keepDays ∧ (r.pruneTrusted io).horizon = r.horizon := by
  unfold Recorder.pruneTrusted
  split <;> exact ⟨rfl, rfl⟩

/-- So does a rotation. -/
theorem rotate_frame (io : Faults) (r : Recorder) (kind : Bytes) (d : Date) :
    (r.rotate io kind d).1.keepDays = r.keepDays ∧ (r.rotate io kind d).1.horizon = r.horizon := by
  unfold Recorder.rotate
  dsimp only
  split_ifs
  · exact ⟨rfl, rfl⟩
  all_goals exact pruneTrusted_frame io { r with archive := r.made io d }

theorem file_frame (io : Faults) (r : Recorder) (kind : Bytes) (at_ : ℤ) :
    (r.file io kind at_).1.keepDays = r.keepDays ∧ (r.file io kind at_).1.horizon = r.horizon := by
  unfold Recorder.file
  split
  · exact rotate_frame io r kind _
  · split_ifs
    · exact ⟨rfl, rfl⟩
    · exact ⟨rfl, rfl⟩
    · exact rotate_frame io _ kind _

/-- Files are closed, but not removed. -/
theorem write_archive (io : Faults) (r : Recorder) (kind : Bytes) (at_ : ℤ) :
    (r.write io kind at_).archive = (r.file io kind at_).1.archive := by
  unfold Recorder.write
  dsimp only
  split_ifs <;> rfl

/-- So does a row. -/
theorem write_frame (io : Faults) (r : Recorder) (kind : Bytes) (at_ : ℤ) :
    (r.write io kind at_).keepDays = r.keepDays ∧ (r.write io kind at_).horizon = r.horizon := by
  unfold Recorder.write
  dsimp only
  split_ifs <;> exact file_frame io r kind at_

/-- What the pruning of a recorder removes. -/
theorem pruneTrusted_gone (io : Faults) (r : Recorder) (hn : n ∈ r.archive)
    (hgone : n ∉ (r.pruneTrusted io).archive) :
    0 < r.keepDays ∧ ∃ h, r.horizon = some h ∧
      Reason (cutoff r.keepDays h) n (r.pruneTrusted io).archive := by
  unfold Recorder.pruneTrusted at hgone ⊢
  split at hgone
  · exact absurd hn hgone
  · rename_i h hh
    have hkeep : 0 < r.keepDays := by
      by_contra hle
      rw [prune_keeps io (not_lt.mp hle)] at hgone
      exact hgone hn
    refine ⟨hkeep, h, hh, ?_⟩
    rw [hh]
    exact (removes_prune io r.keepDays h r.archive).gone n hn hgone

/-- The file that is made does not fill a year or month directory. -/
theorem Hollow.create {t : Archive} {p : List Bytes} (hp : p.length = 4) (h : Hollow n t) :
    Hollow n (FileTree.create p t) := by
  refine ⟨h.isDir, h.name, fun m hm x hpath => ?_⟩
  rcases FileTree.mem_create hm with hm | hm
  · exact h.empty m hm x hpath
  · have hlength := congrArg List.length hpath
    rw [hm, hp, List.length_append, List.length_singleton] at hlength
    have hn := yearOrMonth_length h.name
    omega

/-- What a rotation removes. -/
theorem rotate_gone (hn : n ∈ r.made io d) (hgone : n ∉ (r.rotate io kind d).1.archive) :
    0 < r.keepDays ∧ ∃ h, r.horizon = some h ∧
      Reason (cutoff r.keepDays h) n (r.rotate io kind d).1.archive := by
  unfold Recorder.rotate at hgone ⊢
  dsimp only at hgone ⊢
  have hprune := pruneTrusted_gone io { r with archive := r.made io d } hn
  split_ifs at hgone ⊢ with hmkdir hopen hheader
  · exact absurd hn hgone
  · exact hprune hgone
  all_goals
    obtain ⟨hkeep, h, hh, hreason⟩ := hprune fun hmem => hgone (FileTree.subset_create _ _ hmem)
    exact ⟨hkeep, h, hh, hreason.imp_right (Hollow.create rfl)⟩

/-- What a row removes, and that it opens a file then. -/
theorem file_gone (hn : n ∈ if r.reopens io kind at_ then r.made io (dateOf at_) else r.archive)
    (hgone : n ∉ (r.file io kind at_).1.archive) :
    r.reopens io kind at_ = true ∧ 0 < r.keepDays ∧ ∃ h, r.horizon = some h ∧
      Reason (cutoff r.keepDays h) n (r.file io kind at_).1.archive := by
  unfold Recorder.file at hgone ⊢
  unfold Recorder.reopens at hn ⊢
  cases hfile : r.files.lookup kind with
  | none =>
    rw [hfile] at hn hgone
    exact ⟨rfl, rotate_gone hn hgone⟩
  | some old =>
    rw [hfile] at hn hgone
    dsimp only at hn hgone ⊢
    by_cases hold : old = formatDate (dateOf at_)
    · rw [if_pos hold] at hgone
      rw [if_neg (by simp [hold])] at hn
      exact absurd hn hgone
    · rw [if_neg hold] at hgone ⊢
      by_cases hclose : io.close = true
      · rw [if_pos hclose] at hgone
        rw [if_neg (by simp [hclose])] at hn
        exact absurd hn hgone
      · rw [if_neg hclose] at hgone ⊢
        have hreopens : (old ≠ formatDate (dateOf at_) && !io.close) = true := by
          simp [hold, hclose]
        rw [if_pos hreopens] at hn
        exact ⟨hreopens,
          rotate_gone (r := { r with files := r.files.filter fun f => f.1 ≠ kind }) hn hgone⟩

/-- A snapshot leaves the archive. -/
theorem noteHorizon_frame (r : Recorder) (st : Snapshot) :
    (r.noteHorizon st).keepDays = r.keepDays ∧ (r.noteHorizon st).archive = r.archive := by
  unfold Recorder.noteHorizon
  split_ifs
  · exact ⟨rfl, rfl⟩
  · split
    · exact ⟨rfl, rfl⟩
    · split_ifs <;> exact ⟨rfl, rfl⟩

/-- **What a step removes.**  It opens a file for a row, and prunes from the horizon. -/
theorem step_gone {e : Event} {r' : Recorder} (hstep : r.step e = some r') (hn : n ∈ r.found e)
    (hgone : n ∉ r'.archive) :
    (∃ io kind at_, e = .row io kind at_ ∧ r.reopens io kind at_ = true) ∧ 0 < r.keepDays ∧
      ∃ h, r.horizon = some h ∧ Reason (cutoff r.keepDays h) n r'.archive := by
  cases e with
  | snapshot st =>
    cases hstep
    rw [(noteHorizon_frame r st).2] at hgone
    exact absurd hn hgone
  | row io kind at_ =>
    cases hstep
    rw [write_archive] at hgone ⊢
    obtain ⟨hreopens, hreason⟩ := file_gone hn hgone
    exact ⟨⟨io, kind, at_, rfl, hreopens⟩, hreason⟩
  | close =>
    cases hstep
    exact absurd hn hgone

/-! ## The horizon -/

/-- The times of the SYNCED snapshots. -/
def syncedTimes (events : List Event) : List ℤ :=
  events.filterMap fun
    | .snapshot st => if st.state = .synced then some st.now.instant else none
    | _ => none

/-- The greatest time of a SYNCED snapshot. -/
def latestSynced (events : List Event) : Option ℤ := (syncedTimes events).max?

/-- No event changes the number of days to keep. -/
theorem step_keepDays {e : Event} {r' : Recorder} (hstep : r.step e = some r') :
    r'.keepDays = r.keepDays := by
  cases e with
  | snapshot st =>
    cases hstep
    exact (noteHorizon_frame r st).1
  | row io kind at_ =>
    cases hstep
    exact (write_frame io r kind at_).1
  | close =>
    cases hstep
    rfl

/-- A snapshot leaves the horizon or becomes it, if it is SYNCED and later. -/
theorem noteHorizon_cases (r : Recorder) (st : Snapshot) :
    (r.noteHorizon st).horizon = r.horizon ∨
      (r.noteHorizon st).horizon = some st.now ∧ st.state = .synced ∧
        ∀ h, r.horizon = some h → h.instant < st.now.instant := by
  unfold Recorder.noteHorizon
  split_ifs with hskip
  · exact .inl rfl
  · rw [not_or, ne_eq, not_not] at hskip
    split
    · rename_i hnone
      refine .inr ⟨rfl, hskip.1, fun h hh => ?_⟩
      rw [hnone] at hh
      cases hh
    · rename_i h hh
      split_ifs with hlater
      · refine .inr ⟨rfl, hskip.1, fun h' hh' => ?_⟩
        rw [hh] at hh'
        cases hh'
        exact hlater
      · exact .inl rfl

/-- **The horizon never moves backward.** -/
theorem step_horizon_le {e : Event} {r' : Recorder} (hstep : r.step e = some r') {h : LocalTime}
    (hh : r.horizon = some h) : ∃ h', r'.horizon = some h' ∧ h.instant ≤ h'.instant := by
  cases e with
  | snapshot st =>
    cases hstep
    rcases noteHorizon_cases r st with hsame | ⟨hnew, -, hlater⟩
    · exact ⟨h, hsame.trans hh, le_refl _⟩
    · exact ⟨st.now, hnew, (hlater h hh).le⟩
  | row io kind at_ =>
    cases hstep
    exact ⟨h, (write_frame io r kind at_).2.trans hh, le_refl _⟩
  | close =>
    cases hstep
    exact ⟨h, hh, le_refl _⟩

/-- A new horizon is the time of a SYNCED snapshot. -/
theorem step_horizon {e : Event} {r' : Recorder} (hstep : r.step e = some r') {h : LocalTime}
    (hh : r'.horizon = some h) : r.horizon = some h ∨ h.instant ∈ syncedTimes [e] := by
  cases e with
  | snapshot st =>
    cases hstep
    rcases noteHorizon_cases r st with hsame | ⟨hnew, hsynced, -⟩
    · exact .inl (hsame.symm.trans hh)
    · rw [hnew, Option.some.injEq] at hh
      subst hh
      exact .inr (by simp [syncedTimes, hsynced])
  | row io kind at_ =>
    cases hstep
    exact .inl ((write_frame io r kind at_).2.symm.trans hh)
  | close =>
    cases hstep
    exact .inl hh

end

/-- Along a run the horizon is the time of a SYNCED snapshot of it. -/
theorem run_horizon {events : List Event} {r r' : Recorder}
    (hrun : Runs.run Recorder.step r events = some r') {h : LocalTime} (hh : r'.horizon = some h) :
    r.horizon = some h ∨ h.instant ∈ syncedTimes events := by
  induction events generalizing r with
  | nil =>
    cases hrun
    exact .inl hh
  | cons e events ih =>
    obtain ⟨r₁, hstep, hrest⟩ := Runs.run_cons_eq_some.mp hrun
    have hcons : syncedTimes (e :: events) = syncedTimes [e] ++ syncedTimes events := by
      rw [syncedTimes, syncedTimes, syncedTimes, ← List.filterMap_append]
      rfl
    rw [hcons, List.mem_append]
    rcases ih hrest with hfirst | hlater
    · exact (step_horizon hstep hfirst).imp_right .inl
    · exact .inr (.inr hlater)

/-- Nor does a run. -/
theorem run_keepDays {events : List Event} {r r' : Recorder}
    (hrun : Runs.run Recorder.step r events = some r') : r'.keepDays = r.keepDays :=
  Runs.run_invariant (I := fun s => s.keepDays = r.keepDays)
    (fun _ _ _ hs _ hstep => (step_keepDays hstep).trans hs) rfl
    (Runs.along_of_forall (C := fun _ _ => True) (fun _ _ => trivial) r events) hrun

/-- The recorder takes every event. -/
theorem step_total (r : Recorder) (e : Event) : ∃ r', r.step e = some r' := by
  cases e with
  | snapshot st => exact ⟨_, rfl⟩
  | row io kind at_ => exact ⟨_, rfl⟩
  | close => exact ⟨_, rfl⟩

theorem run_total (r : Recorder) (events : List Event) :
    ∃ r', Runs.run Recorder.step r events = some r' := by
  induction events generalizing r with
  | nil => exact ⟨r, rfl⟩
  | cons e events ih =>
    obtain ⟨r₁, hstep⟩ := step_total r e
    obtain ⟨r', hrun⟩ := ih r₁
    exact ⟨r', Runs.run_cons_eq_some.mpr ⟨r₁, hstep, hrun⟩⟩

/-! ## Whole runs -/

/-- The horizon of a recorder gives the cutoff that UTC gives: its date is not ahead of the UTC
date, and the seconds of the cutoff fit into 64 bits. -/
structure InStep (keepDays : ℤ) (t : LocalTime) : Prop where
  zone : t.localDay ≤ utcDay t.instant
  past : -2 ^ 63 ≤ (t.localDay - keepDays) * 86400
  future : t.localDay * 86400 < 2 ^ 63

instance (keepDays : ℤ) (t : LocalTime) : Decidable (InStep keepDays t) :=
  decidable_of_iff (t.localDay ≤ utcDay t.instant ∧ -2 ^ 63 ≤ (t.localDay - keepDays) * 86400 ∧
    t.localDay * 86400 < 2 ^ 63) ⟨fun h => ⟨h.1, h.2.1, h.2.2⟩, fun h => ⟨h.zone, h.past, h.future⟩⟩

/-- The path leads into a day directory that is older than `keepDays` at the time `now`: its date
is before the UTC date of `now`, less that many days. -/
def Expired (keepDays now : ℤ) (path : List Bytes) : Prop :=
  ∃ d, dayOf path = some d ∧ dayNumber d < utcDay now - keepDays

/-- What a step after the events `past` does to the archive: nothing goes if `keep_days` is not
positive or no snapshot has been SYNCED, and then only what has expired by the greatest time of
a SYNCED snapshot, or year and month directories that hold nothing.  And the horizon does not
move backward. -/
structure Retains (keepDays : ℤ) (past : List Event) (r : Recorder) (e : Event) (r' : Recorder) :
    Prop where
  removed : ∀ n ∈ r.found e, n ∉ r'.archive → 0 < keepDays ∧
    ∃ now, latestSynced past = some now ∧ (Expired keepDays now n.path ∨ Hollow n r'.archive)
  horizon : ∀ h, r.horizon = some h → ∃ h', r'.horizon = some h' ∧ h.instant ≤ h'.instant

/-- No row opens a file while the horizon is out of step. -/
def Recorder.Trusted (r : Recorder) : Event → Prop
  | .row io kind at_ => r.reopens io kind at_ = true → ∀ h ∈ r.horizon, 0 < r.keepDays →
      InStep r.keepDays h
  | _ => True

instance (r : Recorder) (e : Event) : Decidable (r.Trusted e) := by
  unfold Recorder.Trusted
  cases e <;> infer_instance

/-- In step, what is before the cutoff has expired. -/
theorem InStep.expired {keepDays now : ℤ} {h : LocalTime} (hkeep : 0 < keepDays)
    (hin : InStep keepDays h) (hnow : h.instant ≤ now) {path : List Bytes} {d : Date}
    (hd : dayOf path = some d) (hbefore : dateTime d < cutoff keepDays h) :
    Expired keepDays now path := by
  refine ⟨d, hd, ?_⟩
  rw [dayOf_some hd, cutoff_eq hkeep hin.past hin.future, mul_lt_mul_iff_left₀ day_pos] at hbefore
  have hzone := hin.zone
  have hday : utcDay h.instant ≤ utcDay now := Int.ediv_le_ediv day_pos hnow
  omega

/-- Nine hours to the east of UTC. -/
def tokyo : Location := ⟨fun _ => 9 * 3600⟩

/-- 15:30 UTC on 28 February 2026, in a location; in Tokyo it is 00:30 on 1 March. -/
def lateFebruary (loc : Location) : Snapshot where
  state := .synced
  now := ⟨midnight ⟨2026, 2, 28⟩ + 15 * hour + 30 * minute, loc⟩

/-- The days from 26 to 28 February. -/
def februaryArchive : Archive :=
  FileTree.mkdirAll (dayDir ⟨2026, 2, 28⟩) (FileTree.mkdirAll (dayDir ⟨2026, 2, 27⟩)
    (FileTree.mkdirAll (dayDir ⟨2026, 2, 26⟩) []))

/-- A row of that time. -/
def februaryRow : Event := .row noFaults [0x6C] (midnight ⟨2026, 2, 28⟩ + 15 * hour + 30 * minute)

/-- A `keep_days` of more than 64 bits of seconds puts the cutoff into the far future. -/
example : (prune noFaults (2 ^ 47) (lateFebruary utc).now februaryArchive) = [] := by
  decide +kernel

end Carillon.Stats
