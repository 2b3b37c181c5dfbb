/-
# The clock discipline loop

`loop.go`: a phase-locked loop that steps the clock, or slews it through a
transient on the kernel's frequency word, and accounts for the phase that the
word in the kernel has already moved.
-/
import Carillon.Discipline.Measurement

namespace Carillon.Discipline

open HasSqrt (sqrt)

/-- `LoopConfig`. -/
structure LoopConfig (K : Type) where
  stepThreshold : K
  /-- Negative: always step; 0: never; n: only within the first n updates. -/
  stepLimit : ℤ
  panic : K
  panicAtStartup : Bool
  maxSlewPPM : K
  precision : K
  timeConstant : K
  freqMeasure : K

/-- `Action`, an actuator operation. -/
inductive Action (K : Type) where
  | setFrequency (ppm : K)
  | step (seconds : K)
  | resetFilters
  deriving DecidableEq

/-- The action steps the clock. -/
def Action.isStep {K : Type} : Action K → Bool
  | .step _ => true
  | .setFrequency _ | .resetFilters => false

/-- `UpdateResult`: what a loop update decided.  The code's flags exclude each
other, so they are one verdict here. -/
inductive Verdict (K : Type) where
  /-- A step was wanted but the caller withheld permission. -/
  | deferred
  | panicRefused
  /-- A popcorn spike. -/
  | ignored
  | stepped (actions : List (Action K))
  | updated
  deriving DecidableEq

/-- `slewPoint`: the phase applied in total at an accounting point. -/
structure SlewPoint (K : Type) where
  at_ : K
  cum : K

/-- `Loop`. -/
structure Loop (K : Type) where
  cfg : LoopConfig K
  freq : K
  freqKnown : Bool
  /-- The residual phase still to be slewed. -/
  pending : K
  jitter : K
  updates : ℕ
  steps : ℕ
  lastUpdate : K
  lastOffset : K
  tau : K
  /-- The frequency word issued last, and the base it was computed against. -/
  applied : K
  appliedBase : K
  haveApply : Bool
  chargeFrom : K
  haveTick : Bool
  skipJitter : Bool
  firstTime : K
  firstOffset : K
  slewed : K
  slewLog : List (SlewPoint K)
  cumSlew : K

variable {K : Type} [Field K] [LinearOrder K]

/-- `clampFreq`. -/
def clampFreq (f : K) : K :=
  max (-maxFrequency) (min maxFrequency f)

/-- `NewLoop`; a missing time constant is `DefaultTimeConstant`. -/
def Loop.new (cfg : LoopConfig K) (freq : K) (known : Bool) : Loop K :=
  let timeConstant := if cfg.timeConstant ≤ 0 then 4 else cfg.timeConstant
  { cfg := { cfg with timeConstant := timeConstant }
    freq := clampFreq freq
    freqKnown := known
    pending := 0
    jitter := cfg.precision
    updates := 0
    steps := 0
    lastUpdate := 0
    lastOffset := 0
    tau := timeConstant * 2 ^ 6
    applied := 0
    appliedBase := 0
    haveApply := false
    chargeFrom := 0
    haveTick := false
    skipJitter := false
    firstTime := 0
    firstOffset := 0
    slewed := 0
    slewLog := []
    cumSlew := 0 }

/-- `Loop.stepAllowed`. -/
def Loop.stepAllowed (l : Loop K) : Bool :=
  if l.cfg.stepLimit < 0 then true
  else if l.cfg.stepLimit = 0 then false
  else decide ((l.updates : ℤ) < l.cfg.stepLimit)

/-! ## Accounting for the phase the kernel has moved -/

/-- `Loop.elapsed`: the seconds to charge, at most `maxTickInterval`; the
accounting point moves to now. -/
def Loop.elapsed (l : Loop K) (now : K) : K × Loop K :=
  let d := now - l.chargeFrom
  let dt := if l.haveTick then (if d < 0 then 0 else if 2 < d then 2 else d) else 0
  (dt, { l with chargeFrom := now, haveTick := true })

/-- Drop the points that only answer for times older than `cut`. -/
def dropSlew (cut : K) : List (SlewPoint K) → List (SlewPoint K)
  | p :: q :: log => if q.at_ ≤ cut then dropSlew cut (q :: log) else p :: q :: log
  | log => log

/-- `Loop.noteSlew`. -/
def Loop.noteSlew (l : Loop K) (now moved : K) : Loop K :=
  if (l.slewLog.getLast?.elim false fun p => decide (now < p.at_)) then l
  else
    { l with
      cumSlew := l.cumSlew + moved
      slewLog := dropSlew (now - 2 * allanIntercept) (l.slewLog ++ [⟨now, l.cumSlew + moved⟩]) }

/-- `Loop.chargeApplied`: debit what the transient in the kernel has moved. -/
def Loop.chargeApplied (l : Loop K) (now : K) : Loop K :=
  let (dt, l) := l.elapsed now
  let ran := (l.applied - l.appliedBase) / 1000000
  if l.haveApply && decide (0 < dt) && decide (ran ≠ 0) then
    let pending := l.pending - ran * dt
    { l with
      pending := if |pending| < 1 / 1000000000000 then 0 else pending
      slewed := l.slewed + ran * dt }.noteSlew now (ran * dt)
  else l.noteSlew now 0

/-- The bisection of `cumulativeSlew`, with the log's length as fuel. -/
def bisect (log : List (SlewPoint K)) (t : K) : ℕ → ℕ → ℕ → ℕ × ℕ
  | 0, lo, hi => (lo, hi)
  | fuel + 1, lo, hi =>
    if lo + 1 < hi then
      let mid := (lo + hi) / 2
      if (log[mid]?.elim false fun p => decide (p.at_ ≤ t)) then bisect log t fuel mid hi
      else bisect log t fuel lo mid
    else (lo, hi)

/-- `Loop.cumulativeSlew`: the phase applied in total at time `t`. -/
def Loop.cumulativeSlew (l : Loop K) (t : K) : K :=
  match l.slewLog.head?, l.slewLog.getLast? with
  | some first, some last =>
    if t ≤ first.at_ then first.cum
    else if last.at_ ≤ t then
      if l.haveApply then last.cum + (l.applied - l.appliedBase) / 1000000 * (t - last.at_)
      else last.cum
    else
      let (lo, hi) := bisect l.slewLog t l.slewLog.length 0 (l.slewLog.length - 1)
      let a := l.slewLog[lo]?.getD first
      let b := l.slewLog[hi]?.getD last
      if b.at_ = a.at_ then b.cum
      else a.cum + (b.cum - a.cum) * (t - a.at_) / (b.at_ - a.at_)
  | _, _ => 0

/-- `Loop.AppliedSince`. -/
def Loop.appliedSince (l : Loop K) (at_ now : K) : K :=
  if now ≤ at_ then 0 else l.cumulativeSlew now - l.cumulativeSlew at_

/-! ## Updates -/

/-- `Loop.step`: the clock is stepped, and the phase state starts over. -/
def Loop.step (l : Loop K) (now : K) : Loop K :=
  let l := (l.elapsed now).2
  { l with
    steps := l.steps + 1
    updates := l.updates + 1
    appliedBase := l.applied
    slewLog := []
    cumSlew := 0
    pending := 0
    lastOffset := 0
    lastUpdate := now
    firstTime := now
    firstOffset := 0
    slewed := 0
    skipJitter := true }

variable [HasSqrt K]

/-- The clock jitter part of `Update`: an exponential average of the offset
changes, seeded from the precision and leaving out the update after a step. -/
def Loop.noteJitter (l : Loop K) (offset : K) : Loop K :=
  let d := max |offset - l.lastOffset| l.cfg.precision
  if l.updates = 0 then { l with jitter := max l.cfg.precision (d / sqrt 8) }
  else if l.skipJitter then { l with skipJitter := false }
  else { l with jitter := sqrt (l.jitter * l.jitter + (d * d - l.jitter * l.jitter) / 8) }

/-- The frequency part of `Update`: the direct measurement while the frequency is
unknown, and then the integrator, which waits while the slew is saturated. -/
def Loop.learn (l : Loop K) (offset mu tau now : K) : Loop K :=
  if l.updates = 0 then { l with firstTime := now, firstOffset := offset, slewed := 0 }
  else if !l.freqKnown && decide (0 < l.cfg.freqMeasure) then
    let elapsed := now - l.firstTime
    if l.cfg.freqMeasure ≤ elapsed then
      { l with
        freq := clampFreq (l.freq + (offset - l.firstOffset + l.slewed) / elapsed * 1000000)
        freqKnown := true }
    else l
  else if l.cfg.maxSlewPPM / 1000000 * tau < |offset| then l
  else
    { l with
      freq := clampFreq (l.freq + offset * min mu allanIntercept / (4 * tau * tau) * 1000000)
      freqKnown := true }

/-- `Loop.Update`: the panic and step policy, the popcorn spike gate, and then
the update proper. -/
def Loop.update (l : Loop K) (offset : K) (poll : ℤ) (now : K) (synced mayStep : Bool) :
    Loop K × Verdict K :=
  let stepped := (l.step now, .stepped [.step offset, .resetFilters])
  if l.cfg.panic < |offset| then
    if !(decide (l.updates = 0) && l.cfg.panicAtStartup) || !l.stepAllowed then (l, .panicRefused)
    else if mayStep then stepped
    else (l, .deferred)
  else if decide (l.cfg.stepThreshold < |offset|) && l.stepAllowed then
    if mayStep then stepped else (l, .deferred)
  else
    let mu := if l.updates = 0 then 0 else now - l.lastUpdate
    let tau := l.cfg.timeConstant * 2 ^ poll
    if synced && decide (0 < l.updates) && decide (3 * l.jitter < |offset - l.lastOffset|)
        && decide (mu < 2 * 2 ^ poll) then
      (l, .ignored)
    else
      -- the observation replaces the residual phase, so what ran before it is charged first
      let l := ((l.noteJitter offset).learn offset mu tau now).chargeApplied now
      ({ l with
          pending := offset
          lastOffset := offset
          lastUpdate := now
          tau := tau
          updates := l.updates + 1 }, .updated)

/-! ## Ticks -/

/-- `Loop.setApplied`. -/
def Loop.setApplied (l : Loop K) (total : K) : Loop K :=
  { l with applied := total, appliedBase := l.freq, haveApply := true }

/-- `Loop.Tick`: charge the word that ran, then issue the base frequency with a
transient for the phase that remains. -/
def Loop.tick (l : Loop K) (now : K) : Loop K × List (Action K) :=
  let l := l.chargeApplied now
  if l.pending = 0 then
    if !l.haveApply || decide (l.applied ≠ l.freq) then
      (l.setApplied l.freq, [.setFrequency l.freq])
    else (l, [])
  else
    let maxSlew := l.cfg.maxSlewPPM / 1000000
    let adj := if |l.pending| < 1 / 1000000000 then l.pending
      else max (-maxSlew) (min maxSlew (l.pending / l.tau))
    let total := clampFreq (l.freq + adj * 1000000)
    (l.setApplied total, [.setFrequency total])

/-! ## What updates and ticks leave alone -/

omit [HasSqrt K]

/-- The clamp: one end, the frequency itself, or the other end. -/
theorem clampFreq_cases [IsStrictOrderedRing K] (f : K) :
    f ≤ -maxFrequency ∧ clampFreq f = -maxFrequency ∨
      -maxFrequency < f ∧ f < maxFrequency ∧ clampFreq f = f ∨
      maxFrequency ≤ f ∧ clampFreq f = maxFrequency := by
  have h500 : (0 : K) < maxFrequency := by norm_num [maxFrequency]
  unfold clampFreq
  rcases le_or_gt f (-maxFrequency) with hlow | hlow
  · refine .inl ⟨hlow, ?_⟩
    rw [min_eq_right (by linarith), max_eq_left hlow]
  · rcases lt_or_ge f maxFrequency with hhigh | hhigh
    · refine .inr (.inl ⟨hlow, hhigh, ?_⟩)
      rw [min_eq_right hhigh.le, max_eq_right hlow.le]
    · refine .inr (.inr ⟨hhigh, ?_⟩)
      rw [min_eq_left hhigh, max_eq_right (by linarith)]

theorem noteSlew_counts (l : Loop K) (now moved : K) :
    (l.noteSlew now moved).updates = l.updates ∧ (l.noteSlew now moved).steps = l.steps := by
  unfold Loop.noteSlew
  split <;> exact ⟨rfl, rfl⟩

theorem noteSlew_pending (l : Loop K) (now moved : K) :
    (l.noteSlew now moved).pending = l.pending := by
  unfold Loop.noteSlew
  split <;> rfl

theorem chargeApplied_counts (l : Loop K) (now : K) :
    (l.chargeApplied now).updates = l.updates ∧ (l.chargeApplied now).steps = l.steps := by
  unfold Loop.chargeApplied
  dsimp only
  split
  · exact noteSlew_counts _ now _
  · exact noteSlew_counts _ now _

/-- What the accounting leaves alone beside the words. -/
theorem chargeApplied_settings (l : Loop K) (now : K) :
    (l.chargeApplied now).tau = l.tau ∧ (l.chargeApplied now).cfg = l.cfg ∧
      (l.chargeApplied now).lastUpdate = l.lastUpdate ∧
      (l.chargeApplied now).freqKnown = l.freqKnown := by
  have hnote : ∀ (l : Loop K) (moved : K), (l.noteSlew now moved).tau = l.tau ∧
      (l.noteSlew now moved).cfg = l.cfg ∧ (l.noteSlew now moved).lastUpdate = l.lastUpdate ∧
      (l.noteSlew now moved).freqKnown = l.freqKnown := by
    intro l moved
    unfold Loop.noteSlew
    split <;> exact ⟨rfl, rfl, rfl, rfl⟩
  unfold Loop.chargeApplied
  dsimp only
  split
  · exact hnote _ _
  · exact hnote _ _

theorem tick_counts (l : Loop K) (now : K) :
    (l.tick now).1.updates = l.updates ∧ (l.tick now).1.steps = l.steps := by
  have h := chargeApplied_counts l now
  unfold Loop.tick
  dsimp only
  split_ifs <;> exact h

/-- A tick issues a frequency word at most. -/
theorem tick_steps (l : Loop K) (now : K) : (l.tick now).2.any Action.isStep = false := by
  unfold Loop.tick
  dsimp only
  split_ifs <;> rfl

/-- A step leaves no residual phase, and a tick at the same instant finds nothing
to charge. -/
theorem tick_step_pending [IsStrictOrderedRing K] (l : Loop K) (now : K) :
    ((l.step now).tick now).1.pending = 0 := by
  have h : ((l.step now).chargeApplied now).pending = 0 := by
    have helapsed : ((l.step now).elapsed now).1 = 0 := by
      have h2 : ¬ (2 : K) < 0 := not_lt.mpr zero_le_two
      simp [Loop.step, Loop.elapsed, h2]
    unfold Loop.chargeApplied
    dsimp only
    rw [helapsed]
    simp only [lt_irrefl, decide_false, Bool.and_false, Bool.false_and,
      Bool.false_eq_true, if_false]
    rw [noteSlew_pending]
    rfl
  unfold Loop.tick
  dsimp only
  rw [if_pos h]
  split_ifs <;> exact h

/-- What an accounting point makes of the residual phase. -/
theorem chargeApplied_pending (l : Loop K) (now : K) :
    (l.chargeApplied now).pending =
      if l.haveApply && decide (0 < (l.elapsed now).1) &&
          decide ((l.applied - l.appliedBase) / 1000000 ≠ 0) then
        if |l.pending - (l.applied - l.appliedBase) / 1000000 * (l.elapsed now).1|
          < 1 / 1000000000000 then 0
        else l.pending - (l.applied - l.appliedBase) / 1000000 * (l.elapsed now).1
      else l.pending := by
  unfold Loop.chargeApplied
  generalize hel : l.elapsed now = e
  obtain ⟨dt, t⟩ := e
  obtain rfl : { l with chargeFrom := now, haveTick := true } = t := (Prod.mk.inj hel).2
  dsimp only
  split
  · rw [noteSlew_pending]
  · rw [noteSlew_pending]

/-- The transient that a tick wants for the residual phase. -/
def Loop.slew (l : Loop K) : K :=
  if |l.pending| < 1 / 1000000000 then l.pending
  else max (-(l.cfg.maxSlewPPM / 1000000)) (min (l.cfg.maxSlewPPM / 1000000) (l.pending / l.tau))

/-- The word that a tick issues: the base frequency, with a transient for the phase that
remains. -/
def Loop.target (l : Loop K) : K :=
  if l.pending = 0 then l.freq else clampFreq (l.freq + l.slew * 1000000)

/-- The two ways a tick can end, in terms of the loop that has been charged: its word is
issued against the frequency, or nothing remains and the word that runs is the frequency
already, and then it is left with the base it has. -/
theorem tick_outcome (l : Loop K) (now : K) :
    l.tick now = ((l.chargeApplied now).setApplied (l.chargeApplied now).target,
        [.setFrequency (l.chargeApplied now).target]) ∨
      ((l.chargeApplied now).pending = 0 ∧ (l.chargeApplied now).haveApply = true ∧
          (l.chargeApplied now).applied = (l.chargeApplied now).freq) ∧
        l.tick now = (l.chargeApplied now, []) := by
  unfold Loop.tick Loop.target Loop.slew
  dsimp only
  generalize l.chargeApplied now = c
  by_cases hzero : c.pending = 0
  · rw [if_pos hzero, if_pos hzero]
    split
    case isTrue => exact .inl rfl
    case isFalse hsame =>
      simp only [Bool.or_eq_true, Bool.not_eq_true', decide_eq_true_eq, not_or, Bool.not_eq_false,
        not_not] at hsame
      exact .inr ⟨⟨hzero, hsame⟩, rfl⟩
  · rw [if_neg hzero, if_neg hzero]
    exact .inl rfl

section

variable [HasSqrt K]

theorem noteJitter_eq (l : Loop K) (offset : K) :
    ∃ jitter skip, l.noteJitter offset = { l with jitter := jitter, skipJitter := skip } := by
  unfold Loop.noteJitter
  dsimp only
  split_ifs
  · exact ⟨_, _, rfl⟩
  · exact ⟨_, _, rfl⟩
  · exact ⟨_, _, rfl⟩

/-- The three ways an update can end: the loop is left as it was, the clock is stepped, or
the offset is learned from, the phase that ran is charged and the offset replaces what is
pending. -/
theorem update_outcome (l : Loop K) (offset : K) (poll : ℤ) (now : K) (synced mayStep : Bool) :
    (∃ v, (v = .deferred ∨ v = .panicRefused ∨ v = .ignored) ∧
      l.update offset poll now synced mayStep = (l, v)) ∨
    l.update offset poll now synced mayStep
      = (l.step now, .stepped [.step offset, .resetFilters]) ∨
    ∃ m, m = (l.noteJitter offset).learn offset (if l.updates = 0 then 0 else now - l.lastUpdate)
        (l.cfg.timeConstant * 2 ^ poll) now ∧
      l.update offset poll now synced mayStep =
        ({ m.chargeApplied now with
            pending := offset
            lastOffset := offset
            lastUpdate := now
            tau := l.cfg.timeConstant * 2 ^ poll
            updates := (m.chargeApplied now).updates + 1 }, .updated) := by
  unfold Loop.update
  dsimp only
  generalize (if l.updates = 0 then 0 else now - l.lastUpdate) = mu
  split_ifs
  · exact .inl ⟨_, .inr (.inl rfl), rfl⟩
  · exact .inr (.inl rfl)
  · exact .inl ⟨_, .inl rfl, rfl⟩
  · exact .inr (.inl rfl)
  · exact .inl ⟨_, .inl rfl, rfl⟩
  · exact .inl ⟨_, .inr (.inr rfl), rfl⟩
  · exact .inr (.inr ⟨_, rfl, rfl⟩)

/-- An update that is not refused counts, and only a step counts as one. -/
theorem update_cases (l : Loop K) (offset : K) (poll : ℤ) (now : K) (synced mayStep : Bool) :
    (∃ v, (v = .deferred ∨ v = .panicRefused ∨ v = .ignored) ∧
      l.update offset poll now synced mayStep = (l, v)) ∨
    l.update offset poll now synced mayStep
      = (l.step now, .stepped [.step offset, .resetFilters]) ∨
    ∃ l', l.update offset poll now synced mayStep = (l', .updated) ∧
      l'.updates = l.updates + 1 ∧ l'.steps = l.steps := by
  obtain hrefused | hstepped | ⟨m, hm, h⟩ := update_outcome l offset poll now synced mayStep
  · exact .inl hrefused
  · exact .inr (.inl hstepped)
  · have hcounts : m.updates = l.updates ∧ m.steps = l.steps := by
      obtain ⟨jitter, skip, hjitter⟩ := noteJitter_eq l offset
      rw [hm, hjitter]
      unfold Loop.learn
      dsimp only
      split_ifs <;> exact ⟨rfl, rfl⟩
    refine .inr (.inr ⟨_, h, ?_, ?_⟩)
    · dsimp only
      rw [(chargeApplied_counts m now).1, hcounts.1]
    · dsimp only
      rw [(chargeApplied_counts m now).2, hcounts.2]

end

end Carillon.Discipline
