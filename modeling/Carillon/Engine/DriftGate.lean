/-
# The gate in front of the drift file

The engine notes the frequency with every status it handles and writes the drift file
only while that frequency holds still (`noteFrequency`, `frequencySettled` and
`maybeWriteDrift` in `engine.go`).  Three rules work on the history in place: a status that
is not SYNCED clears it, another system source or another step clears it, and what
lies before the window is cut off, up to the newest entry at or before its start.

What the history says about the statuses that were really noted is `Retained`: it holds
the last of them, with none left out, and they are all SYNCED and of one source and one
step count.  The guarantee of the gate follows from that and from the order of the times.

Times and frequencies are values of an ordered field, so `clock.CheckFrequency`, which
refuses what is not finite, has nothing to refuse here.
-/
import Carillon.Discipline.System

namespace Carillon

open Discipline (Name Status)

variable {K : Type} [Field K] [LinearOrder K]

/-! ## The history -/

/-- `freqSample`. -/
structure FreqSample (K : Type) where
  at_ : K
  ppm : K
  updates : ℕ

/-- What the gate reads of the engine's `Config`, durations in seconds. -/
structure DriftConfig (K : Type) where
  driftFile : String
  driftInterval : K
  driftStableWindow : K
  driftStableSpread : K

/-- What the gate keeps in the `Engine`. -/
structure DriftGate (K : Type) where
  freqHistory : List (FreqSample K)
  freqSource : Option Name
  freqSteps : ℕ
  lastDriftWrite : K
  driftSkipShown : Bool

/-- The gate of a new engine. -/
def DriftGate.new : DriftGate K := ⟨[], none, 0, 0, false⟩

/-- `minDriftUpdates`. -/
def minDriftUpdates : ℤ := 2

/-- The entries from the newest one at or before the cut on, or all of them when there is
no such entry. -/
def cutHistory (cut : K) : List (FreqSample K) → List (FreqSample K)
  | a :: b :: l => if b.at_ ≤ cut then cutHistory cut (b :: l) else a :: b :: l
  | l => l

/-- The entry for a status. -/
def FreqSample.of (now : K) (st : Status K) : FreqSample K := ⟨now, st.frequency, st.updates⟩

/-- `noteFrequency`. -/
def DriftGate.noteFrequency (cfg : DriftConfig K) (g : DriftGate K) (now : K) (st : Status K) :
    DriftGate K :=
  if st.state ≠ .synced then { g with freqHistory := [] }
  else
    let g := if st.systemSource ≠ g.freqSource ∨ st.steps ≠ g.freqSteps then
        { g with freqHistory := [], freqSource := st.systemSource, freqSteps := st.steps }
      else g
    { g with
      freqHistory := cutHistory (now - cfg.driftStableWindow) (g.freqHistory ++ [.of now st]) }

/-- Why the frequency is not settled. -/
inductive Unsettled (K : Type) where
  /-- "less than %s of frequency history" -/
  | history (window : K)
  /-- "only %d loop updates in the last %s; a frequency nothing is measuring is not settled,
  it is frozen" -/
  | frozen (got : ℤ) (window : K)
  /-- "frequency moved %.3f ppm in the last %s, more than the %.3f ppm the estimate must
  hold to" -/
  | moved (spread window bound : K)
  deriving DecidableEq

/-- The loop that looks for the lowest and the highest frequency. -/
def band (lo hi : K) : List (FreqSample K) → K × K
  | [] => (lo, hi)
  | f :: l => band (min lo f.ppm) (max hi f.ppm) l

/-- `frequencySettled`. -/
def DriftGate.frequencySettled (cfg : DriftConfig K) (g : DriftGate K) (now : K) :
    Except (Unsettled K) Unit :=
  match g.freqHistory with
  | [] => .error (.history cfg.driftStableWindow)
  | first :: rest =>
    if now - first.at_ < cfg.driftStableWindow then .error (.history cfg.driftStableWindow)
    else
      let last := (first :: rest).getLast (List.cons_ne_nil first rest)
      let got := (last.updates : ℤ) - first.updates
      if got < minDriftUpdates then .error (.frozen got cfg.driftStableWindow)
      else
        let (lo, hi) := band first.ppm first.ppm rest
        if cfg.driftStableSpread < hi - lo then
          .error (.moved (hi - lo) cfg.driftStableWindow cfg.driftStableSpread)
        else .ok ()

/-- What `maybeWriteDrift` does besides changing the gate. -/
inductive DriftEffect (K : Type) where
  | nothing
  /-- "leaving the drift file alone" -/
  | leaving (why : Unsettled K) (ppm : K)
  /-- "deferring the drift file write" -/
  | deferring (why : Unsettled K)
  /-- The frequency is offered to the writer. -/
  | offer (ppm : K)

/-- `maybeWriteDrift`, with what the discipline answers. -/
def DriftGate.maybeWriteDrift (cfg : DriftConfig K) (g : DriftGate K) (now : K)
    (final freqKnown : Bool) (ppm : K) : DriftGate K × DriftEffect K :=
  if cfg.driftFile = "" ∨ freqKnown = false then (g, .nothing)
  else if final = false ∧ g.lastDriftWrite ≠ 0 ∧ now - g.lastDriftWrite < cfg.driftInterval then
    (g, .nothing)
  else
    match g.frequencySettled cfg now with
    | .error why =>
      if final then (g, .leaving why ppm)
      else if g.driftSkipShown then (g, .nothing)
      else ({ g with driftSkipShown := true }, .deferring why)
    | .ok () => ({ g with driftSkipShown := false, lastDriftWrite := now }, .offer ppm)

/-! ## Runs -/

/-- A status that was noted, and when. -/
abbrev FreqNote (K : Type) := K × Status K

/-- The engine's calls. -/
inductive DriftCall (K : Type) where
  | note (n : FreqNote K)
  | write (now : K) (final freqKnown : Bool) (ppm : K)

/-- One call. -/
def DriftGate.call (cfg : DriftConfig K) (g : DriftGate K) : DriftCall K → DriftGate K
  | .note n => g.noteFrequency cfg n.1 n.2
  | .write now final freqKnown ppm => (g.maybeWriteDrift cfg now final freqKnown ppm).1

/-- The gate after a list of calls. -/
def DriftGate.after (cfg : DriftConfig K) (g : DriftGate K) (calls : List (DriftCall K)) :
    DriftGate K :=
  calls.foldl (·.call cfg) g

/-- The status a call notes. -/
def DriftCall.noted : DriftCall K → Option (FreqNote K)
  | .note n => some n
  | .write .. => none

/-- The statuses that were noted, in order. -/
def noted (calls : List (DriftCall K)) : List (FreqNote K) := calls.filterMap DriftCall.noted

/-! ## What the history is evidence of -/

/-- A status of one system source and one step count, while SYNCED. -/
structure OfChain (source : Option Name) (steps : ℕ) (st : Status K) : Prop where
  synced : st.state = .synced
  source : st.systemSource = source
  steps : st.steps = steps

/-- The entries of the history for a list of notes. -/
def samples (notes : List (FreqNote K)) : List (FreqSample K) :=
  notes.map fun n => FreqSample.of n.1 n.2

/-- The history holds the last of the statuses noted, every one from some point on, and
they belong together. -/
structure Retained (g : DriftGate K) (notes kept : List (FreqNote K)) : Prop where
  suffix : kept <:+ notes
  history : g.freqHistory = samples kept
  chain : ∀ n ∈ kept, OfChain g.freqSource g.freqSteps n.2

omit [Field K] in
/-- Cutting drops entries from the front only. -/
theorem cutHistory_suffix (cut : K) (l : List (FreqSample K)) : cutHistory cut l <:+ l := by
  induction l using cutHistory.induct cut with
  | case1 a b l hb ih =>
      rw [cutHistory, if_pos hb]
      exact ih.trans (List.suffix_cons a (b :: l))
  | case2 a b l hb => rw [cutHistory, if_neg hb]
  | case3 l hl => rw [cutHistory.eq_2 cut l hl]

omit [Field K] in
/-- So the history stays that of an end of the notes. -/
theorem cutHistory_samples (cut : K) (kept : List (FreqNote K)) :
    ∃ rest, rest <:+ kept ∧ cutHistory cut (samples kept) = samples rest := by
  have hcut := List.suffix_iff_eq_drop.mp (cutHistory_suffix cut (samples kept))
  rw [samples, ← List.map_drop] at hcut
  exact ⟨_, List.drop_suffix _ kept, hcut⟩

/-- The writer's side does not touch the history. -/
theorem maybeWriteDrift_keeps (cfg : DriftConfig K) (g : DriftGate K) (now : K)
    (final freqKnown : Bool) (ppm : K) :
    (g.maybeWriteDrift cfg now final freqKnown ppm).1.freqHistory = g.freqHistory ∧
      (g.maybeWriteDrift cfg now final freqKnown ppm).1.freqSource = g.freqSource ∧
      (g.maybeWriteDrift cfg now final freqKnown ppm).1.freqSteps = g.freqSteps := by
  fun_cases DriftGate.maybeWriteDrift cfg g now final freqKnown ppm <;> exact ⟨rfl, rfl, rfl⟩

namespace Retained

variable {cfg : DriftConfig K} {g : DriftGate K} {notes kept : List (FreqNote K)}

omit [Field K] in
/-- A SYNCED status that belongs to what is kept joins it, and the cut drops a part. -/
theorem joined (h : Retained g notes kept) (now : K) {st : Status K}
    (hst : OfChain g.freqSource g.freqSteps st) (cut : K) :
    ∃ kept', Retained { g with freqHistory := cutHistory cut (g.freqHistory ++ [.of now st]) }
      (notes ++ [(now, st)]) kept' := by
  obtain ⟨rest, hrest, hcut⟩ := cutHistory_samples cut (kept ++ [(now, st)])
  refine ⟨rest, hrest.trans ?_, ?_, ?_⟩
  · exact (List.suffix_append_inj_of_length_eq rfl).mpr ⟨h.suffix, rfl⟩
  · rw [samples, List.map_append, ← samples, ← h.history] at hcut
    exact hcut
  · intro n hn
    obtain hkept | rfl := List.mem_append.mp (hrest.subset hn) |>.imp_right List.mem_singleton.mp
    · exact h.chain n hkept
    · exact hst

omit [Field K] [LinearOrder K] in
/-- Nothing is kept of what was noted so far. -/
theorem cleared (g : DriftGate K) (hist : g.freqHistory = []) (notes : List (FreqNote K)) :
    Retained g notes [] :=
  ⟨List.nil_suffix, hist, fun _ h => nomatch h⟩

/-- One status noted. -/
theorem note (h : Retained g notes kept) (now : K) (st : Status K) :
    ∃ kept', Retained (g.noteFrequency cfg now st) (notes ++ [(now, st)]) kept' := by
  unfold DriftGate.noteFrequency
  by_cases hsync : st.state = .synced
  · rw [if_neg (not_not.mpr hsync)]
    by_cases hchange : st.systemSource ≠ g.freqSource ∨ st.steps ≠ g.freqSteps
    · rw [if_pos hchange]
      -- The partition starts again with this status alone.
      exact (cleared
        { g with freqHistory := [], freqSource := st.systemSource, freqSteps := st.steps }
        rfl notes).joined now ⟨hsync, rfl, rfl⟩ (now - cfg.driftStableWindow)
    · rw [if_neg hchange]
      rw [not_or, not_not, not_not] at hchange
      exact h.joined now ⟨hsync, hchange.1, hchange.2⟩ _
  · rw [if_pos hsync]
    exact ⟨[], cleared _ rfl _⟩

end Retained

/-- In every run the history is the end of what was noted. -/
theorem after_retained (cfg : DriftConfig K) (calls : List (DriftCall K)) :
    ∃ kept, Retained (DriftGate.new.after cfg calls) (noted calls) kept := by
  induction calls using List.reverseRecOn with
  | nil => exact ⟨[], .cleared _ rfl _⟩
  | append_singleton calls c ih =>
      obtain ⟨kept, hret⟩ := ih
      rw [DriftGate.after, List.foldl_append, noted, List.filterMap_append]
      cases c with
      | note n => exact hret.note n.1 n.2
      | write now final freqKnown ppm =>
          obtain ⟨hhist, hsource, hsteps⟩ := maybeWriteDrift_keeps cfg
            (DriftGate.new.after cfg calls) now final freqKnown ppm
          change ∃ kept', Retained _ (noted calls ++ []) kept'
          rw [List.append_nil]
          refine ⟨kept, hret.suffix, hhist.trans hret.history, ?_⟩
          intro n hn
          have hn := hret.chain n hn
          exact ⟨hn.synced, hn.source.trans hsource.symm, hn.steps.trans hsteps.symm⟩

/-! ## The gate's guarantee -/

omit [Field K] in
/-- The band holds everything it was taken over. -/
theorem band_bounds (lo hi : K) (l : List (FreqSample K)) :
    (band lo hi l).1 ≤ lo ∧ hi ≤ (band lo hi l).2 ∧
      ∀ f ∈ l, (band lo hi l).1 ≤ f.ppm ∧ f.ppm ≤ (band lo hi l).2 := by
  induction l generalizing lo hi with
  | nil => exact ⟨le_rfl, le_rfl, nofun⟩
  | cons f l ih =>
      obtain ⟨hlo, hhi, hmem⟩ := ih (min lo f.ppm) (max hi f.ppm)
      refine ⟨hlo.trans (min_le_left _ _), (le_max_left _ _).trans hhi, ?_⟩
      rintro x (_ | ⟨_, hx⟩)
      · exact ⟨hlo.trans (min_le_right _ _), (le_max_right _ _).trans hhi⟩
      · exact hmem x hx

section Guarantee

variable [IsStrictOrderedRing K]

/-- What the three tests of `frequencySettled` say about the history. -/
theorem frequencySettled_ok {cfg : DriftConfig K} {g : DriftGate K} {now : K}
    (h : g.frequencySettled cfg now = .ok ()) :
    ∃ first rest, g.freqHistory = first :: rest ∧
      first.at_ ≤ now - cfg.driftStableWindow ∧
      minDriftUpdates ≤
        (((first :: rest).getLast (List.cons_ne_nil first rest)).updates : ℤ) - first.updates ∧
      ∀ a ∈ first :: rest, ∀ b ∈ first :: rest, a.ppm - b.ppm ≤ cfg.driftStableSpread := by
  unfold DriftGate.frequencySettled at h
  cases hhist : g.freqHistory with
  | nil => simp [hhist] at h
  | cons first rest =>
      simp only [hhist] at h
      split at h
      · cases h
      rename_i hwindow
      split at h
      · cases h
      rename_i hupdates
      split at h
      · cases h
      rename_i hspread
      refine ⟨first, rest, rfl, ?_, not_lt.mp hupdates, ?_⟩
      · exact le_sub_comm.mp (not_lt.mp hwindow)
      · obtain ⟨hlo, hhi, hmem⟩ := band_bounds first.ppm first.ppm rest
        have hband : ∀ f ∈ first :: rest, (band first.ppm first.ppm rest).1 ≤ f.ppm ∧
            f.ppm ≤ (band first.ppm first.ppm rest).2 := by
          rintro f (_ | ⟨_, hf⟩)
          · exact ⟨hlo, hhi⟩
          · exact hmem f hf
        intro a ha b hb
        exact (sub_le_sub (hband a ha).2 (hband b hb).1).trans (not_lt.mp hspread)

/-- The evidence behind a settled frequency, about the statuses really noted: `first` was
noted at or before the start of the window, nothing noted inside the window is before it, and
from it on every status is SYNCED, of one source and one step count, within the spread,
and with enough loop updates from the first to the last. -/
structure Settled (cfg : DriftConfig K) (g : DriftGate K) (notes : List (FreqNote K)) (now : K)
    (earlier : List (FreqNote K)) (first : FreqNote K) (later : List (FreqNote K)) : Prop where
  notes_eq : notes = earlier ++ first :: later
  retained : g.freqHistory = samples (first :: later)
  start : first.1 ≤ now - cfg.driftStableWindow
  outside : ∀ n ∈ earlier, n.1 ≤ first.1
  chain : ∀ n ∈ first :: later, OfChain first.2.systemSource first.2.steps n.2
  spread : ∀ m ∈ first :: later, ∀ n ∈ first :: later,
    m.2.frequency - n.2.frequency ≤ cfg.driftStableSpread
  updates : minDriftUpdates ≤
    (((first :: later).getLast (List.cons_ne_nil first later)).2.updates : ℤ) - first.2.updates

/-- **The drift-file gate.**  After any calls, the notes in order of time, the frequency
counts as settled only on that evidence; in particular every status noted after the
start of the window is part of it. -/
theorem frequencySettled_evidence (cfg : DriftConfig K) (calls : List (DriftCall K)) (now : K)
    (htimes : (noted calls).Pairwise fun m n => m.1 ≤ n.1)
    (h : (DriftGate.new.after cfg calls).frequencySettled cfg now = .ok ()) :
    ∃ earlier first later,
      Settled cfg (DriftGate.new.after cfg calls) (noted calls) now earlier first later ∧
      ∀ n ∈ noted calls, now - cfg.driftStableWindow < n.1 → n ∈ later := by
  obtain ⟨kept, ⟨earlier, hsplit⟩, hhistory, hchain⟩ := after_retained cfg calls
  obtain ⟨s, rest, hhist, hstart, hupdates, hspread⟩ := frequencySettled_ok h
  rw [hhistory] at hhist
  obtain ⟨first, later, rfl, rfl, rfl⟩ := List.map_eq_cons_iff.mp hhist
  rw [← hsplit] at htimes
  have houtside : ∀ n ∈ earlier, n.1 ≤ first.1 := fun n hn =>
    (List.pairwise_append.mp htimes).2.2 n hn first List.mem_cons_self
  have hfirst := hchain first List.mem_cons_self
  refine ⟨earlier, first, later,
    ⟨hsplit.symm, hhistory, hstart, houtside, ?_, ?_, ?_⟩, ?_⟩
  · intro n hn
    have hn := hchain n hn
    exact ⟨hn.synced, hn.source.trans hfirst.source.symm, hn.steps.trans hfirst.steps.symm⟩
  · intro m hm n hn
    exact hspread (.of m.1 m.2) (hhist ▸ List.mem_map_of_mem hm)
      (.of n.1 n.2) (hhist ▸ List.mem_map_of_mem hn)
  · simp only [← hhist, samples, List.getLast_map] at hupdates
    exact hupdates
  · intro n hn hinside
    rw [← hsplit] at hn
    obtain hn | _ | ⟨_, hn⟩ := List.mem_append.mp hn
    · exact absurd hinside (not_lt.mpr ((houtside n hn).trans hstart))
    · exact absurd hinside (not_lt.mpr hstart)
    · exact hn

/-- A window of a hundred seconds and a spread of one ppm. -/
def hundredSeconds : DriftConfig ℚ := ⟨"carillon.drift", 3600, 100, 1⟩

/-- A SYNCED status of source "a" with a frequency and a number of loop updates. -/
def steadyStatus (ppm : ℚ) (updates : ℕ) : Status ℚ where
  state := .synced
  stratum := 2
  refID := Ntp.kissINIT
  leap := .none
  rootDelay := 0
  rootDisp := 0
  offset := 0
  frequency := ppm
  freqKnown := true
  jitter := 0
  pending := 0
  systemSource := some .a
  preferLost := false
  ppsQualified := false
  lastUpdate := 0
  updates := updates
  steps := 0
  sources := []

/-- Three notes over the window, after one that was not SYNCED. -/
def steadyCalls : List (DriftCall ℚ) :=
  [.note (0, { steadyStatus 40 1 with state := .settling }), .note (10, steadyStatus 10 2),
    .note (60, steadyStatus (21 / 2) 3), .write 60 false true (21 / 2),
    .note (110, steadyStatus 10 4)]

theorem frequencySettled_evidence_steady :
    ∃ earlier first later,
      Settled hundredSeconds (DriftGate.new.after hundredSeconds steadyCalls) (noted steadyCalls)
        110 earlier first later ∧
      ∀ n ∈ noted steadyCalls, 110 - hundredSeconds.driftStableWindow < n.1 → n ∈ later :=
  frequencySettled_evidence hundredSeconds steadyCalls 110 (by decide +kernel)
    (by decide +kernel)

end Guarantee

end Carillon
