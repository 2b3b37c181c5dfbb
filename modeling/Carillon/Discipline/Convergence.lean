/-
# The closed loop converges

The loop drives a clock whose oscillator needs the word `rate` to keep time: between
ticks the offset moves by the rate less the word in the kernel.  A tick comes every
second and an update with the exact offset every `mu` seconds, right before that second's
tick (`TestLoopConvergesWhateverTheUpdateSpacing`).

While nothing is stepped, ignored, saturated or clamped, one period takes the offset `x`
to `residual^[mu] x + mu * y`, where `y` is the error of the frequency, and the next update
takes `mu / (4 tau²)` of the offset off `y`.  The residual decays by `1 - 1 / tau` a second,
except that less than a nanosecond is slewed at once.  That is a linear recurrence of the
second order with a disturbance of two nanoseconds at most, and it is stable.

A loop may start with a word that is equal to its frequency and was issued against another
base.  With nothing to slew, `Tick` leaves such a word and its base alone; the first offset
that is not zero repairs that (`Servo.Settled`).
-/
import Carillon.Discipline.Accounting
import Carillon.Lib.Recurrence
import Mathlib.Analysis.Real.Sqrt

namespace Carillon.Discipline

variable {K : Type} [Field K] [LinearOrder K]

/-! ## The loop and its clock -/

/-- The frequency that the integrator wants. -/
def Loop.integrated (l : Loop K) (offset mu tau : K) : K :=
  l.freq + offset * min mu allanIntercept / (4 * tau * tau) * 1000000

/-- A loop with the clock it drives. -/
structure Servo (K : Type) where
  loop : Loop K
  offset : K
  now : K

/-- What happens to a servo: the word its oscillator needs, and the updates. -/
structure Course (K : Type) where
  rate : K
  poll : ℤ
  /-- The seconds from one update to the next. -/
  mu : ℕ
  synced : ℕ → Bool
  mayStep : ℕ → Bool

def Servo.tick (s : Servo K) : Servo K :=
  { s with loop := (s.loop.tick s.now).1 }

/-- A second passes. -/
def Servo.wait (s : Servo K) (rate : K) : Servo K :=
  { s with offset := s.offset + (rate - s.loop.applied) / 1000000, now := s.now + 1 }

/-- The servo some seconds after an update, with a tick at the beginning of each. -/
def Servo.after (s : Servo K) (rate : K) : ℕ → Servo K
  | 0 => s
  | j + 1 => (s.after rate j).tick.wait rate

variable [HasSqrt K]

/-- The `k`th update, with the exact offset. -/
def Servo.update (s : Servo K) (c : Course K) (k : ℕ) : Servo K :=
  { s with loop := (s.loop.update s.offset c.poll s.now (c.synced k) (c.mayStep k)).1 }

/-- The servo right before the `k`th update. -/
def Servo.before (s : Servo K) (c : Course K) : ℕ → Servo K
  | 0 => s
  | k + 1 => ((s.before c k).update c k).after c.rate c.mu

/-- The `k`th update is taken as it is: it does not step and is not ignored, refused or
deferred, it is not saturated, and the frequency is not clamped. -/
def Servo.UpdateFree (s : Servo K) (c : Course K) (k : ℕ) : Prop :=
  let tau := s.loop.cfg.timeConstant * 2 ^ c.poll
  (s.loop.update s.offset c.poll s.now (c.synced k) (c.mayStep k)).2 = .updated ∧
    |s.offset| ≤ s.loop.cfg.maxSlewPPM / 1000000 * tau ∧
    (s.loop.updates ≠ 0 → |s.loop.integrated s.offset (s.now - s.loop.lastUpdate) tau| ≤
      maxFrequency)

/-- The word of a tick is not clamped. -/
def Servo.TickFree (s : Servo K) : Prop :=
  |(s.loop.chargeApplied s.now).freq + (s.loop.chargeApplied s.now).slew * 1000000| ≤ maxFrequency

/-- In the `k`th period neither the update nor a tick is restrained. -/
def Servo.Free (s : Servo K) (c : Course K) (k : ℕ) : Prop :=
  (s.before c k).UpdateFree c k ∧
    ∀ j < c.mu, (((s.before c k).update c k).after c.rate j).TickFree

/-! ## Updates and ticks that are not restrained -/

omit [HasSqrt K] in
theorem clampFreq_of_abs_le [IsStrictOrderedRing K] {f : K} (h : |f| ≤ maxFrequency) :
    clampFreq f = f := by
  obtain ⟨hl, hr⟩ := abs_le.mp h
  rw [clampFreq, min_eq_right hr, max_eq_right hl]

variable {l : Loop K}

omit [HasSqrt K] in
/-- At the accounting point itself nothing is charged. -/
theorem chargeApplied_at_once [IsStrictOrderedRing K] {now : K} (hfrom : l.chargeFrom = now) :
    (l.chargeApplied now).pending = l.pending := by
  have hdt : ¬ 0 < (l.elapsed now).1 := by
    have h2 : ¬ (2 : K) < 0 := not_lt.mpr zero_le_two
    simp [Loop.elapsed, hfrom, h2]
  rw [chargeApplied_pending, if_neg (by simp [hdt])]

omit [HasSqrt K] in
/-- After a second the word's transient is charged, and a picosecond is dropped. -/
theorem chargeApplied_second [IsStrictOrderedRing K] {now : K} (htick : l.haveTick = true)
    (hfrom : l.chargeFrom = now) (happly : l.haveApply = true) :
    (l.chargeApplied (now + 1)).pending = l.pending - (l.applied - l.appliedBase) / 1000000 ∨
      (l.chargeApplied (now + 1)).pending = 0 ∧
        |l.pending - (l.applied - l.appliedBase) / 1000000| < 1 / 1000000000000 := by
  have hdt : (l.elapsed (now + 1)).1 = 1 := by
    have h1 : ¬ (1 : K) < 0 := not_lt.mpr zero_le_one
    have h2 : ¬ (2 : K) < 1 := not_lt.mpr one_le_two
    simp [Loop.elapsed, hfrom, htick, h1, h2]
  rw [chargeApplied_pending, hdt, mul_one]
  by_cases hran : (l.applied - l.appliedBase) / 1000000 = 0
  · rw [if_neg (by simp [hran]), hran, sub_zero]
    exact .inl rfl
  · rw [if_pos (by simp [happly, hran])]
    split
    · next hsnap => exact .inr ⟨rfl, hsnap⟩
    · exact .inl rfl

/-- What an update that is taken leaves of the loop.  The word in the kernel and its base
stay, and the accounting point moves to the update. -/
structure Loop.Updated (l l' : Loop K) (offset tau now freq : K) : Prop where
  pending : l'.pending = offset
  tau : l'.tau = tau
  freq : l'.freq = freq
  lastUpdate : l'.lastUpdate = now
  updates : l'.updates = l.updates + 1
  cfg : l'.cfg = l.cfg
  freqKnown : l'.freqKnown = true
  applied : l'.applied = l.applied
  appliedBase : l'.appliedBase = l.appliedBase
  haveApply : l'.haveApply = l.haveApply
  chargeFrom : l'.chargeFrom = now
  haveTick : l'.haveTick = true

/-- The estimates, once the frequency is known: the integrator waits for the second update
and for the linear region. -/
theorem learn_known (hknown : l.freqKnown = true) (offset mu tau now : K) :
    ((l.noteJitter offset).learn offset mu tau now).cfg = l.cfg ∧
      ((l.noteJitter offset).learn offset mu tau now).updates = l.updates ∧
      ((l.noteJitter offset).learn offset mu tau now).freqKnown = true ∧
      ((l.noteJitter offset).learn offset mu tau now).applied = l.applied ∧
      ((l.noteJitter offset).learn offset mu tau now).appliedBase = l.appliedBase ∧
      ((l.noteJitter offset).learn offset mu tau now).haveApply = l.haveApply ∧
      ((l.noteJitter offset).learn offset mu tau now).freq =
        if l.updates = 0 then l.freq
        else if l.cfg.maxSlewPPM / 1000000 * tau < |offset| then l.freq
        else clampFreq (l.integrated offset mu tau) := by
  obtain ⟨jitter, skip, hjitter⟩ := noteJitter_eq l offset
  rw [hjitter]
  unfold Loop.learn Loop.integrated
  dsimp only
  rw [hknown]
  simp only [Bool.not_true, Bool.false_and, Bool.false_eq_true, if_false]
  split_ifs
  · exact ⟨rfl, rfl, rfl, rfl, rfl, rfl, rfl⟩
  · exact ⟨rfl, rfl, rfl, rfl, rfl, rfl, rfl⟩
  · exact ⟨rfl, rfl, rfl, rfl, rfl, rfl, rfl⟩

/-- An update that is taken. -/
theorem update_updated {offset now : K} {poll : ℤ} {synced mayStep : Bool}
    (hknown : l.freqKnown = true) (h : (l.update offset poll now synced mayStep).2 = .updated) :
    l.Updated (l.update offset poll now synced mayStep).1 offset (l.cfg.timeConstant * 2 ^ poll) now
      (if l.updates = 0 then l.freq
        else if l.cfg.maxSlewPPM / 1000000 * (l.cfg.timeConstant * 2 ^ poll) < |offset| then l.freq
        else clampFreq
          (l.integrated offset (now - l.lastUpdate) (l.cfg.timeConstant * 2 ^ poll))) := by
  obtain ⟨v, hv, hrefused⟩ | hstepped | ⟨m, hm, htaken⟩ :=
    update_outcome l offset poll now synced mayStep
  · rw [hrefused] at h
    rcases hv with rfl | rfl | rfl <;> cases h
  · rw [hstepped] at h
    cases h
  · have hlearn := learn_known hknown offset (if l.updates = 0 then 0 else now - l.lastUpdate)
      (l.cfg.timeConstant * 2 ^ poll) now
    rw [← hm] at hlearn
    obtain ⟨hcfg, hupdates, hknown', happlied, hbase, hhave, hfreq⟩ := hlearn
    obtain ⟨happlied', hbase', hhave', hfreq', hfrom, htick⟩ := chargeApplied_keeps m now
    obtain ⟨-, hcfg', -, hknown''⟩ := chargeApplied_settings m now
    have hlearned : m.freq = if l.updates = 0 then l.freq
        else if l.cfg.maxSlewPPM / 1000000 * (l.cfg.timeConstant * 2 ^ poll) < |offset| then l.freq
        else clampFreq
          (l.integrated offset (now - l.lastUpdate) (l.cfg.timeConstant * 2 ^ poll)) := by
      rw [hfreq]
      by_cases hfirst : l.updates = 0
      · rw [if_pos hfirst, if_pos hfirst]
      · simp only [if_neg hfirst]
    rw [← hlearned, htaken]
    exact ⟨rfl, rfl, hfreq', rfl, by rw [← hupdates, ← (chargeApplied_counts m now).1],
      hcfg'.trans hcfg, hknown''.trans hknown', happlied'.trans happlied, hbase'.trans hbase,
      hhave'.trans hhave, hfrom, htick⟩

/-! ## The residual phase from tick to tick -/

variable {s : Servo K} {tau : K}

section

omit [HasSqrt K]

/-- The transient for a residual phase in the linear region: a part of it, or all of what
is less than a nanosecond. -/
def slewRate (tau p : K) : K :=
  if |p| < 1 / 1000000000 then p else p / tau

/-- What is left after a second. -/
def residual (tau p : K) : K := p - slewRate tau p

theorem residual_of_lt {tau p : K} (h : |p| < 1 / 1000000000) : residual tau p = 0 := by
  rw [residual, slewRate, if_pos h, sub_self]

theorem residual_of_le {tau p : K} (h : 1 / 1000000000 ≤ |p|) :
    residual tau p = (1 - 1 / tau) * p := by
  rw [residual, slewRate, if_neg (not_lt.mpr h)]
  ring

variable [IsStrictOrderedRing K]

/-- The decay of a second. -/
theorem decay_mem (htau : 2 ≤ tau) : 1 / 2 ≤ 1 - 1 / tau ∧ 1 - 1 / tau < 1 := by
  have hpos : 0 < tau := by linarith
  have hle : 1 / tau ≤ 1 / 2 := one_div_le_one_div_of_le (by norm_num) htau
  have hlt : 0 < 1 / tau := one_div_pos.mpr hpos
  constructor <;> linarith

theorem abs_residual_le (htau : 2 ≤ tau) (p : K) : |residual tau p| ≤ |p| := by
  obtain ⟨hhalf, hone⟩ := decay_mem htau
  rcases lt_or_ge |p| (1 / 1000000000) with hp | hp
  · rw [residual_of_lt hp, abs_zero]
    exact abs_nonneg p
  · rw [residual_of_le hp, abs_mul, abs_of_nonneg (by linarith)]
    exact mul_le_of_le_one_left (abs_nonneg p) hone.le

/-- The residual never comes to lie between nothing and a picosecond. -/
theorem residual_eq_zero (htau : 2 ≤ tau) {p : K} (h : |residual tau p| < 1 / 1000000000000) :
    residual tau p = 0 := by
  obtain ⟨hhalf, -⟩ := decay_mem htau
  rcases lt_or_ge |p| (1 / 1000000000) with hp | hp
  · exact residual_of_lt hp
  · rw [residual_of_le hp, abs_mul, abs_of_nonneg (by linarith)] at h
    have hfar : 1 / 2 * (1 / 1000000000) ≤ (1 - 1 / tau) * |p| :=
      mul_le_mul hhalf hp (by positivity) (by linarith)
    norm_num at hfar h
    linarith

/-- In the linear region the transient is not limited. -/
theorem slew_eq (htau : 0 < l.tau) (h : |l.pending| ≤ l.cfg.maxSlewPPM / 1000000 * l.tau) :
    l.slew = slewRate l.tau l.pending := by
  have hrate : |l.pending / l.tau| ≤ l.cfg.maxSlewPPM / 1000000 := by
    rw [abs_div, abs_of_pos htau]
    exact (div_le_iff₀ htau).mpr h
  obtain ⟨hl, hr⟩ := abs_le.mp hrate
  rw [Loop.slew, slewRate, min_eq_right hr, max_eq_right hl]

/-- After a tick: the word in the kernel is the frequency with the transient for the
residual phase, issued against the frequency itself. -/
structure Servo.Tracking (s : Servo K) (tau freq p : K) : Prop where
  constant : s.loop.tau = tau
  estimate : s.loop.freq = freq
  pending : s.loop.pending = p
  limit : |p| ≤ s.loop.cfg.maxSlewPPM / 1000000 * tau
  haveApply : s.loop.haveApply = true
  base : s.loop.appliedBase = freq
  word : s.loop.applied = freq + slewRate tau p * 1000000
  chargeFrom : s.loop.chargeFrom = s.now
  haveTick : s.loop.haveTick = true

/-- A tick that is not restrained, whatever is left to slew; when nothing is, the word must
not be one that only happens to be the frequency. -/
theorem tracking_tick {tau freq p : K} (htau : 0 < tau)
    (hpending : (s.loop.chargeApplied s.now).pending = p) (hstau : s.loop.tau = tau)
    (hfreq : s.loop.freq = freq) (hlimit : |p| ≤ s.loop.cfg.maxSlewPPM / 1000000 * tau)
    (hfree : s.TickFree)
    (hsettled : p ≠ 0 ∨ s.loop.haveApply = false ∨ s.loop.applied ≠ freq ∨
      s.loop.appliedBase = freq) : s.tick.Tracking tau freq p := by
  obtain ⟨happlied, hbase, hhave, hcfreq, hfrom, htick⟩ := chargeApplied_keeps s.loop s.now
  obtain ⟨hctau, hcfg, -⟩ := chargeApplied_settings s.loop s.now
  rw [← hfreq, ← hcfreq, ← happlied, ← hbase, ← hhave] at hsettled
  rw [← hcfg] at hlimit
  rw [← hctau] at hstau
  rw [← hcfreq] at hfreq
  unfold Servo.TickFree at hfree
  unfold Servo.tick
  have houtcome := tick_outcome s.loop s.now
  generalize s.loop.chargeApplied s.now = c at *
  subst hpending hstau hfreq
  have hslew : c.slew = slewRate c.tau c.pending := slew_eq htau hlimit
  obtain h | ⟨⟨hzero, hyes, hsame⟩, h⟩ := houtcome
  · have htarget : c.target = c.freq + slewRate c.tau c.pending * 1000000 := by
      unfold Loop.target
      split
      case isTrue hzero => simp [slewRate, hzero]
      case isFalse => rw [clampFreq_of_abs_le hfree, hslew]
    rw [h]
    exact ⟨rfl, rfl, rfl, hlimit, rfl, rfl, htarget, hfrom, htick⟩
  · have hb : c.appliedBase = c.freq := by
      rcases hsettled with h | h | h | h
      · exact absurd hzero h
      · exact absurd (hyes.symm.trans h) (by simp)
      · exact absurd hsame h
      · exact h
    rw [h]
    exact ⟨rfl, rfl, rfl, hlimit, hyes, hb, by simp [hsame, slewRate, hzero], hfrom, htick⟩

/-- The charge of a second leaves its residual. -/
theorem Servo.Tracking.charge {tau freq p : K} (htau : 2 ≤ tau) (h : s.Tracking tau freq p)
    (rate : K) :
    ((s.wait rate).loop.chargeApplied (s.wait rate).now).pending = residual tau p := by
  have hran : s.loop.pending - (s.loop.applied - s.loop.appliedBase) / 1000000 =
      residual tau p := by
    rw [h.pending, h.word, h.base, residual]
    ring
  show (s.loop.chargeApplied (s.now + 1)).pending = residual tau p
  rcases chargeApplied_second h.haveTick h.chargeFrom h.haveApply with hp | ⟨hp, hsnap⟩
  · rw [hp, hran]
  · rw [hran] at hsnap
    rw [hp, residual_eq_zero htau hsnap]

/-- The next tick finds the residual of a second. -/
theorem tracking_next {tau freq p rate : K} (htau : 2 ≤ tau) (h : s.Tracking tau freq p)
    (hfree : (s.wait rate).TickFree) :
    (s.wait rate).tick.Tracking tau freq (residual tau p) :=
  tracking_tick (by linarith) (h.charge htau rate) h.constant h.estimate
    ((abs_residual_le htau p).trans h.limit) hfree (.inr (.inr (.inr h.base)))

/-- A second passes over a tracking loop. -/
theorem Servo.Tracking.wait_offset {tau freq p : K} (h : s.Tracking tau freq p) (rate : K) :
    (s.wait rate).offset = s.offset - p + residual tau p + (rate - freq) / 1000000 := by
  unfold Servo.wait residual
  dsimp only
  rw [h.word]
  ring

/-- The seconds of a period, each from its tick on. -/
theorem tracking_after {tau freq p rate : K} (htau : 2 ≤ tau) (h : s.tick.Tracking tau freq p)
    (hoffset : s.offset = p) {n : ℕ} (hfree : ∀ j < n, (s.after rate j).TickFree) (j : ℕ)
    (hj : j < n) :
    (s.after rate j).tick.Tracking tau freq ((residual tau)^[j] p) ∧
      (s.after rate j).offset = (residual tau)^[j] p + j * ((rate - freq) / 1000000) := by
  induction j with
  | zero =>
    refine ⟨h, ?_⟩
    simp [Servo.after, hoffset]
  | succ j ih =>
    obtain ⟨htracking, hoff⟩ := ih (Nat.lt_of_succ_lt hj)
    rw [Function.iterate_succ_apply']
    refine ⟨tracking_next htau htracking (hfree (j + 1) hj), ?_⟩
    rw [Servo.after, htracking.wait_offset, show (s.after rate j).tick.offset = _ from hoff]
    push_cast
    ring

/-- The decay of the residual over some seconds, up to a nanosecond. -/
theorem iterate_residual (htau : 2 ≤ tau) (x : K) (n : ℕ) :
    |(residual tau)^[n] x - (1 - 1 / tau) ^ n * x| ≤ 1 / 1000000000 := by
  obtain ⟨hhalf, hone⟩ := decay_mem htau
  -- as long as there is a nanosecond left the decay is exact; then all of it is slewed
  have hcases : (residual tau)^[n] x = (1 - 1 / tau) ^ n * x ∨
      (residual tau)^[n] x = 0 ∧ |(1 - 1 / tau) ^ n * x| < 1 / 1000000000 := by
    induction n with
    | zero => exact .inl (by simp)
    | succ n ih =>
      have hsmaller : |(1 - 1 / tau) ^ (n + 1) * x| ≤ |(1 - 1 / tau) ^ n * x| := by
        rw [pow_succ', mul_assoc, abs_mul, abs_of_nonneg (by linarith)]
        exact mul_le_of_le_one_left (abs_nonneg _) hone.le
      rw [Function.iterate_succ_apply']
      rcases ih with heq | ⟨hzero, hsmall⟩
      · rw [heq]
        rcases lt_or_ge |(1 - 1 / tau) ^ n * x| (1 / 1000000000) with hp | hp
        · exact .inr ⟨residual_of_lt hp, hsmaller.trans_lt hp⟩
        · exact .inl (by rw [residual_of_le hp, pow_succ', mul_assoc])
      · exact .inr ⟨by rw [hzero]; exact residual_of_lt (by simp), hsmaller.trans_lt hsmall⟩
  rcases hcases with heq | ⟨hzero, hsmall⟩
  · rw [heq, sub_self, abs_zero]
    positivity
  · rw [hzero, zero_sub, abs_neg]
    exact hsmall.le

end

/-! ## From update to update -/

section

omit [HasSqrt K]

/-- What the seconds of a period leave alone. -/
theorem after_keeps (s : Servo K) (rate : K) (j : ℕ) :
    (s.after rate j).loop.cfg = s.loop.cfg ∧ (s.after rate j).loop.freq = s.loop.freq ∧
      (s.after rate j).loop.lastUpdate = s.loop.lastUpdate ∧
      (s.after rate j).loop.freqKnown = s.loop.freqKnown ∧
      (s.after rate j).loop.updates = s.loop.updates ∧ (s.after rate j).now = s.now + j := by
  induction j with
  | zero => exact ⟨rfl, rfl, rfl, rfl, rfl, by simp [Servo.after]⟩
  | succ j ih =>
    obtain ⟨hcfg, hfreq, hlast, hknown, hupdates, hnow⟩ := ih
    obtain ⟨hcfg', hfreq', hlast', hknown', hupdates'⟩ :=
      tick_keeps (s.after rate j).loop (s.after rate j).now
    refine ⟨hcfg'.trans hcfg, hfreq'.trans hfreq, hlast'.trans hlast, hknown'.trans hknown,
      hupdates'.trans hupdates, ?_⟩
    show (s.after rate j).now + 1 = s.now + (j + 1 : ℕ)
    rw [hnow]
    push_cast
    ring

/-- The next tick issues a word, or the word in the kernel was issued against the frequency
that the loop still has. -/
def Servo.Settled (s : Servo K) : Prop :=
  s.offset ≠ 0 ∨ s.loop.haveApply = false ∨ s.loop.applied ≠ s.loop.freq ∨
    s.loop.appliedBase = s.loop.freq

/-- As long as no tick issues a word, the word in the kernel goes on moving the offset. -/
theorem word_after (hoffset : s.offset = 0) (hword : s.loop.applied = s.loop.freq) (rate : K)
    (j : ℕ) :
    (s.after rate j).loop.appliedBase = s.loop.freq ∨
      (s.after rate j).loop.applied = s.loop.freq ∧
        (s.after rate j).offset = j * ((rate - s.loop.freq) / 1000000) := by
  induction j with
  | zero => exact .inr ⟨hword, by simp [Servo.after, hoffset]⟩
  | succ j ih =>
    have hfreq := (after_keeps s rate j).2.1
    obtain ⟨happlied, hbase, -, hcfreq, -⟩ :=
      chargeApplied_keeps (s.after rate j).loop (s.after rate j).now
    have hloop : (s.after rate (j + 1)).loop =
        ((s.after rate j).loop.tick (s.after rate j).now).1 := rfl
    have hoff : (s.after rate (j + 1)).offset = (s.after rate j).offset
        + (rate - (s.after rate (j + 1)).loop.applied) / 1000000 := rfl
    rcases tick_outcome (s.after rate j).loop (s.after rate j).now with h | ⟨-, h⟩
    · left
      rw [hloop, h]
      exact hcfreq.trans hfreq
    · rw [h] at hloop
      rcases ih with hsame | ⟨hsame, hmoved⟩
      · left
        rw [hloop, hbase, hsame]
      · right
        rw [hoff, hloop, happlied, hsame, hmoved]
        refine ⟨rfl, ?_⟩
        push_cast
        ring

end

variable [IsStrictOrderedRing K]

/-- An unrestrained update: from the second on, the frequency takes a part of the offset. -/
theorem updated_of_free {c : Course K} {k : ℕ} (hknown : s.loop.freqKnown = true)
    (h : s.UpdateFree c k) :
    s.loop.Updated (s.update c k).loop s.offset (s.loop.cfg.timeConstant * 2 ^ c.poll) s.now
      (if s.loop.updates = 0 then s.loop.freq
        else s.loop.integrated s.offset (s.now - s.loop.lastUpdate)
          (s.loop.cfg.timeConstant * 2 ^ c.poll)) := by
  obtain ⟨hverdict, hlinear, hunclamped⟩ := h
  have hupdated := update_updated hknown hverdict
  by_cases hfirst : s.loop.updates = 0
  · rw [if_pos hfirst] at hupdated ⊢
    exact hupdated
  · rw [if_neg hfirst, if_neg (not_lt.mpr hlinear),
      clampFreq_of_abs_le (hunclamped hfirst)] at hupdated
    rw [if_neg hfirst]
    exact hupdated

/-- An update with no offset leaves the frequency as it is. -/
theorem freq_of_offset_zero {c : Course K} {k : ℕ} (hknown : s.loop.freqKnown = true)
    (h : s.UpdateFree c k) (hoffset : s.offset = 0) :
    (s.update c k).loop.freq = s.loop.freq := by
  rw [(updated_of_free hknown h).freq, Loop.integrated, hoffset]
  simp

/-- **One period.**  The offset decays and gathers the error of the frequency. -/
theorem period_settled {c : Course K} {k : ℕ} (htau : 2 ≤ tau)
    (hstau : s.loop.cfg.timeConstant * 2 ^ c.poll = tau) (hmu : 0 < c.mu)
    (hknown : s.loop.freqKnown = true) (hupdate : s.UpdateFree c k)
    (hticks : ∀ j < c.mu, ((s.update c k).after c.rate j).TickFree) (hsettled : s.Settled) :
    ((s.update c k).after c.rate c.mu).offset = (residual tau)^[c.mu] s.offset +
        c.mu * ((c.rate - ((s.update c k).after c.rate c.mu).loop.freq) / 1000000) ∧
      ((s.update c k).after c.rate c.mu).Settled := by
  have hupdated := updated_of_free hknown hupdate
  rw [hstau] at hupdated
  have hlimit := hupdate.2.1
  rw [hstau, ← hupdated.cfg] at hlimit
  have hfirst : (s.update c k).tick.Tracking tau (s.update c k).loop.freq s.offset := by
    refine tracking_tick (by linarith) ?_ hupdated.tau rfl hlimit (hticks 0 hmu) ?_
    · exact (chargeApplied_at_once hupdated.chargeFrom).trans hupdated.pending
    · by_cases hoffset : s.offset = 0
      · rw [hupdated.haveApply, hupdated.applied, hupdated.appliedBase,
          freq_of_offset_zero hknown hupdate hoffset]
        exact hsettled
      · exact .inl hoffset
  obtain ⟨m, hm⟩ := Nat.exists_eq_add_of_le' hmu
  obtain ⟨htracking, hoffset⟩ := tracking_after htau hfirst rfl hticks m (by omega)
  have hfreq := (after_keeps (s.update c k) c.rate c.mu).2.1
  rw [hfreq]
  rw [hm] at hfreq ⊢
  constructor
  · rw [Servo.after, htracking.wait_offset, Function.iterate_succ_apply',
      show ((s.update c k).after c.rate m).tick.offset = _ from hoffset]
    push_cast
    ring
  · refine .inr (.inr (.inr ?_))
    rw [hfreq]
    exact htracking.base

/-- A loop that is not settled either is so after a period, or needs no correction. -/
theorem period_unsettled {c : Course K} {k : ℕ} (hmu : 0 < c.mu) (hknown : s.loop.freqKnown = true)
    (hupdate : s.UpdateFree c k) (hsettled : ¬ s.Settled)
    (hnext : ¬ ((s.update c k).after c.rate c.mu).Settled) :
    s.offset = 0 ∧ s.loop.freq = c.rate := by
  unfold Servo.Settled at hsettled hnext
  push Not at hsettled hnext
  obtain ⟨hoffset, -, hword, -⟩ := hsettled
  obtain ⟨hoffset', -, -, hbase'⟩ := hnext
  have hfreq := freq_of_offset_zero hknown hupdate hoffset
  have hsame : (s.update c k).loop.applied = (s.update c k).loop.freq := by
    rw [(updated_of_free hknown hupdate).applied, hfreq, hword]
  refine ⟨hoffset, ?_⟩
  rcases word_after (s := s.update c k) hoffset hsame c.rate c.mu with h | ⟨-, h⟩
  · exact absurd (h.trans (after_keeps (s.update c k) c.rate c.mu).2.1.symm) hbase'
  · rw [hoffset', hfreq] at h
    have hmu' : (c.mu : K) ≠ 0 := Nat.cast_ne_zero.mpr hmu.ne'
    have : (c.rate - s.loop.freq) / 1000000 = 0 := (mul_eq_zero.mp h.symm).resolve_left hmu'
    have : c.rate - s.loop.freq = 0 := by
      rcases div_eq_zero_iff.mp this with h | h
      · exact h
      · exact absurd h (by norm_num)
    linarith

/-! ## Runs -/

section

variable {s : Servo K} {c : Course K}

theorem before_keeps (hknown : s.loop.freqKnown = true) (hfree : ∀ k, s.Free c k) (k : ℕ) :
    (s.before c k).loop.freqKnown = true ∧ (s.before c k).loop.cfg = s.loop.cfg := by
  induction k with
  | zero => exact ⟨hknown, rfl⟩
  | succ k ih =>
    have hupdated := updated_of_free ih.1 (hfree k).1
    obtain ⟨hcfg, -, -, hknown', -⟩ := after_keeps ((s.before c k).update c k) c.rate c.mu
    exact ⟨hknown'.trans hupdated.freqKnown, hcfg.trans (hupdated.cfg.trans ih.2)⟩

/-- From the second update on, the loop knows how long the last one is ago, and the
integrator takes its part of the offset. -/
theorem freq_next (hknown : s.loop.freqKnown = true) (hfree : ∀ k, s.Free c k)
    (hallan : (c.mu : K) ≤ allanIntercept) (hstau : s.loop.cfg.timeConstant * 2 ^ c.poll = tau)
    (k : ℕ) :
    (s.before c (k + 2)).loop.freq = (s.before c (k + 1)).loop.freq +
      (s.before c (k + 1)).offset * c.mu / (4 * tau * tau) * 1000000 := by
  have hupdated := updated_of_free (before_keeps hknown hfree k).1 (hfree k).1
  obtain ⟨-, -, hlast, -, hupdates, hnow⟩ := after_keeps ((s.before c k).update c k) c.rate c.mu
  have hcount : (s.before c (k + 1)).loop.updates ≠ 0 := by
    rw [show (s.before c (k + 1)).loop.updates = _ from hupdates, hupdated.updates]
    exact Nat.succ_ne_zero _
  have hago : (s.before c (k + 1)).now - (s.before c (k + 1)).loop.lastUpdate = c.mu := by
    rw [show (s.before c (k + 1)).now = _ from hnow,
      show (s.before c (k + 1)).loop.lastUpdate = _ from hlast, hupdated.lastUpdate]
    exact add_sub_cancel_left _ _
  have hnext := updated_of_free (before_keeps hknown hfree (k + 1)).1 (hfree (k + 1)).1
  rw [if_neg hcount, Loop.integrated, hago, min_eq_left hallan,
    (before_keeps hknown hfree (k + 1)).2, hstau] at hnext
  exact (after_keeps ((s.before c (k + 1)).update c (k + 1)) c.rate c.mu).2.1.trans hnext.freq

/-- Once settled, the loop stays so. -/
theorem settled_of_le (htau : 2 ≤ tau) (hstau : s.loop.cfg.timeConstant * 2 ^ c.poll = tau)
    (hmu : 0 < c.mu) (hknown : s.loop.freqKnown = true) (hfree : ∀ k, s.Free c k) {k₀ k : ℕ}
    (hle : k₀ ≤ k) (h : (s.before c k₀).Settled) : (s.before c k).Settled := by
  induction k, hle using Nat.le_induction with
  | base => exact h
  | succ k _ ih =>
    obtain ⟨hknown', hcfg⟩ := before_keeps hknown hfree k
    exact (period_settled htau (by rw [hcfg, hstau]) hmu hknown' (hfree k).1 (hfree k).2 ih).2

/-- A settled period, for the servo before each update. -/
theorem offset_next (htau : 2 ≤ tau) (hstau : s.loop.cfg.timeConstant * 2 ^ c.poll = tau)
    (hmu : 0 < c.mu) (hknown : s.loop.freqKnown = true) (hfree : ∀ k, s.Free c k) {k : ℕ}
    (h : (s.before c k).Settled) :
    (s.before c (k + 1)).offset = (residual tau)^[c.mu] (s.before c k).offset +
      c.mu * ((c.rate - (s.before c (k + 1)).loop.freq) / 1000000) := by
  obtain ⟨hknown', hcfg⟩ := before_keeps hknown hfree k
  exact (period_settled htau (by rw [hcfg, hstau]) hmu hknown' (hfree k).1 (hfree k).2 h).1

/-- **Two periods.**  The offsets at three updates in a row follow a linear recurrence up
to two nanoseconds. -/
theorem offset_recurrence (htau : 2 ≤ tau) (hstau : s.loop.cfg.timeConstant * 2 ^ c.poll = tau)
    (hmu : 0 < c.mu) (hallan : (c.mu : K) ≤ allanIntercept) (hknown : s.loop.freqKnown = true)
    (hfree : ∀ k, s.Free c k) {k : ℕ} (h : (s.before c k).Settled) :
    |(s.before c (k + 2)).offset -
        (1 + (1 - 1 / tau) ^ c.mu - (c.mu / (2 * tau)) ^ 2) * (s.before c (k + 1)).offset +
        (1 - 1 / tau) ^ c.mu * (s.before c k).offset| ≤ 2 / 1000000000 := by
  have hnext := settled_of_le htau hstau hmu hknown hfree (Nat.le_succ k) h
  have hfirst := offset_next htau hstau hmu hknown hfree h
  have hsecond := offset_next htau hstau hmu hknown hfree hnext
  rw [freq_next hknown hfree hallan hstau k] at hsecond
  have hclose := iterate_residual htau (s.before c k).offset c.mu
  have hclose' := iterate_residual htau (s.before c (k + 1)).offset c.mu
  -- what is left of the recurrence are the two nanoseconds that were slewed at once
  have heq : (s.before c (k + 2)).offset -
        (1 + (1 - 1 / tau) ^ c.mu - (c.mu / (2 * tau)) ^ 2) * (s.before c (k + 1)).offset +
        (1 - 1 / tau) ^ c.mu * (s.before c k).offset
      = ((residual tau)^[c.mu] (s.before c (k + 1)).offset -
          (1 - 1 / tau) ^ c.mu * (s.before c (k + 1)).offset) -
        ((residual tau)^[c.mu] (s.before c k).offset -
          (1 - 1 / tau) ^ c.mu * (s.before c k).offset) := by
    have htau0 : tau ≠ 0 := by linarith
    have hpull : (c.mu : K) * ((c.rate - ((s.before c (k + 1)).loop.freq +
          (s.before c (k + 1)).offset * c.mu / (4 * tau * tau) * 1000000)) / 1000000)
        = c.mu * ((c.rate - (s.before c (k + 1)).loop.freq) / 1000000) -
          (c.mu / (2 * tau)) ^ 2 * (s.before c (k + 1)).offset := by
      field_simp
      ring
    rw [hsecond, hpull]
    linear_combination -hfirst
  calc _ = _ := congrArg abs heq
    _ ≤ 1 / 1000000000 + 1 / 1000000000 := (abs_sub _ _).trans (add_le_add hclose' hclose)
    _ = 2 / 1000000000 := by norm_num

end

/-- The recurrence is stable: the decay is inside the unit circle, and the integrator takes
at most what is there. -/
theorem stable_coefficients {tau : ℝ} {mu : ℕ} (hmu : 0 < mu) (htau : 2 ≤ tau)
    (hspan : (mu : ℝ) ≤ 2 * tau) :
    |(1 - 1 / tau) ^ mu| < 1 ∧
      |1 + (1 - 1 / tau) ^ mu - (mu / (2 * tau)) ^ 2| < 1 + (1 - 1 / tau) ^ mu := by
  obtain ⟨hhalf, hone⟩ := decay_mem htau
  have hmu' : (0 : ℝ) < mu := Nat.cast_pos.mpr hmu
  have hdecay : 0 < (1 - 1 / tau) ^ mu := pow_pos (by linarith) mu
  have hgain : 0 < (mu / (2 * tau)) ^ 2 := by positivity
  have hgain' : (mu / (2 * tau)) ^ 2 ≤ 1 := by
    have : (mu : ℝ) / (2 * tau) ≤ 1 := (div_le_one (by linarith)).mpr hspan
    exact pow_le_one₀ (by positivity) this
  constructor
  · rw [abs_of_pos hdecay]
    exact pow_lt_one₀ (by linarith) hone hmu.ne'
  · rw [abs_lt]
    constructor <;> linarith

/-- **The closed loop converges.**  For every spacing of the updates and every time constant
there is a constant such that, from every initial state, in every course without restraint,
the offset at the updates ends up within that many nanoseconds, and the frequency within
that many thousandths of a ppm of the rate. -/
theorem loop_converges (mu : ℕ) (tau : ℝ) (hmu : 0 < mu) (htau : 2 ≤ tau)
    (hspan : (mu : ℝ) ≤ 2 * tau) (hallan : (mu : ℝ) ≤ allanIntercept) :
    ∃ C : ℝ, ∀ (c : Course ℝ) (s : Servo ℝ), c.mu = mu →
      s.loop.cfg.timeConstant * 2 ^ c.poll = tau → s.loop.freqKnown = true →
      (∀ k, s.Free c k) →
      ∀ᶠ k in Filter.atTop, |(s.before c k).offset| ≤ C * (1 / 1000000000) ∧
        |(s.before c k).loop.freq - c.rate| ≤ C * (1 / 1000) := by
  obtain ⟨hdecay, hgain⟩ := stable_coefficients hmu htau hspan
  obtain ⟨C, hC, hbound⟩ := Recurrence.exists_eventually_abs_le hdecay hgain
  refine ⟨4 * C + 1, ?_⟩
  rintro c s rfl hstau hknown hfree
  by_cases hsettles : ∃ k₀, (s.before c k₀).Settled
  · obtain ⟨k₀, hk₀⟩ := hsettles
    have hsettled : ∀ k ≥ k₀, (s.before c k).Settled := fun k hk =>
      settled_of_le htau hstau hmu hknown hfree hk hk₀
    have hoffset : ∀ᶠ k in Filter.atTop, |(s.before c k).offset| ≤ C * (2 / 1000000000) := by
      refine hbound (fun k => (s.before c k).offset) _ (by norm_num) ?_
      exact Filter.eventually_atTop.mpr ⟨k₀, fun k hk =>
        offset_recurrence htau hstau hmu hallan hknown hfree (hsettled k hk)⟩
    obtain ⟨k₁, hk₁⟩ := Filter.eventually_atTop.mp hoffset
    refine Filter.eventually_atTop.mpr ⟨max k₀ k₁ + 1, fun k hk => ?_⟩
    obtain ⟨j, rfl⟩ := Nat.exists_eq_add_of_le' (Nat.one_le_of_lt hk)
    have hx := hk₁ j (by omega)
    have hx' := hk₁ (j + 1) (by omega)
    refine ⟨by linarith, ?_⟩
    -- the error of the frequency is what the last period added to the offset
    have hnext := offset_next htau hstau hmu hknown hfree (hsettled j (by omega))
    have hclose := iterate_residual htau (s.before c j).offset c.mu
    have hsmall : |(1 - 1 / tau) ^ c.mu * (s.before c j).offset| ≤ |(s.before c j).offset| := by
      rw [abs_mul]
      exact mul_le_of_le_one_left (abs_nonneg _) hdecay.le
    have hgathered : |(c.mu : ℝ) * ((c.rate - (s.before c (j + 1)).loop.freq) / 1000000)|
        ≤ (4 * C + 1) * (1 / 1000000000) := by
      rw [eq_sub_of_add_eq' hnext.symm, abs_le]
      obtain ⟨hl, hr⟩ := abs_le.mp hx'
      obtain ⟨hcl, hcr⟩ := abs_le.mp hclose
      obtain ⟨hsl, hsr⟩ := abs_le.mp (hsmall.trans hx)
      constructor <;> linarith
    have hmu1 : (1 : ℝ) ≤ c.mu := Nat.one_le_cast.mpr hmu
    rw [abs_mul, abs_div, abs_of_pos (by linarith : (0 : ℝ) < c.mu), abs_sub_comm c.rate,
      abs_of_pos (by norm_num : (0 : ℝ) < 1000000)] at hgathered
    have hone : |(s.before c (j + 1)).loop.freq - c.rate| / 1000000
        ≤ c.mu * (|(s.before c (j + 1)).loop.freq - c.rate| / 1000000) :=
      le_mul_of_one_le_left (by positivity) hmu1
    linarith
  · -- the word in the kernel keeps time
    push Not at hsettles
    refine Filter.Eventually.of_forall fun k => ?_
    obtain ⟨hzero, hrate⟩ := period_unsettled hmu (before_keeps hknown hfree k).1 (hfree k).1
      (hsettles k) (hsettles (k + 1))
    rw [hzero, hrate, sub_self, abs_zero]
    constructor <;> positivity

section Samples

/-- A loop with a short time constant, and with stepping switched off. -/
def captureLoop : LoopConfig K := ⟨128 / 1000, 0, 1000, false, 500, 1 / 1000000, 1 / 2, 0⟩

/-- An update every four seconds, of a clock whose oscillator is off by 20 ppm. -/
def captureCourse : Course K := ⟨20, 2, 4, fun _ => false, fun _ => true⟩

/-- A fresh loop, 500 µs off. -/
def farServo : Servo K := ⟨.new captureLoop 0 true, 1 / 2000, 0⟩

/-- What holds before every update of that servo: what four seconds gather of the frequency's
error is small, or as large as the offset that tells of it. -/
structure Servo.Capturing (s : Servo K) : Prop where
  cfg : s.loop.cfg = captureLoop
  freqKnown : s.loop.freqKnown = true
  offset : |s.offset| ≤ 1 / 1250
  settled : s.Settled
  near : s.loop.updates = 0 ∧ |4 * ((20 - s.loop.freq) / 1000000)| ≤ 1 / 10000 ∨
    s.loop.updates ≠ 0 ∧ s.now - s.loop.lastUpdate = 4 ∧
      |4 * ((20 - s.loop.freq) / 1000000) - s.offset| ≤ 1 / 10000

omit [HasSqrt K] in
theorem captureTau :
    (captureLoop (K := K)).timeConstant * 2 ^ (captureCourse (K := K)).poll = 2 := by
  norm_num [captureLoop, captureCourse]

omit [HasSqrt K] in
/-- The offset is in the linear region. -/
theorem capture_limit {x : K} (h : |x| ≤ 1 / 1250) :
    |x| ≤ (captureLoop (K := K)).maxSlewPPM / 1000000 * 2 :=
  h.trans (by norm_num [captureLoop])

/-- No update of that servo is restrained, and then little is left of the frequency's error. -/
theorem capturing_update (h : s.Capturing) (k : ℕ) :
    s.UpdateFree captureCourse k ∧
      |4 * ((20 - (s.update captureCourse k).loop.freq) / 1000000)| ≤ 1 / 10000 := by
  have htau : s.loop.cfg.timeConstant * 2 ^ (captureCourse (K := K)).poll = 2 := by
    rw [h.cfg, captureTau]
  have hfreq : s.loop.updates ≠ 0 →
      |4 * ((20 - s.loop.integrated s.offset (s.now - s.loop.lastUpdate) 2) / 1000000)|
        ≤ 1 / 10000 := by
    intro hcount
    obtain ⟨hfirst, -⟩ | ⟨-, hago, hnear⟩ := h.near
    · exact absurd hfirst hcount
    · refine le_of_eq_of_le (congrArg abs ?_) hnear
      rw [Loop.integrated, hago, min_eq_left (by norm_num [allanIntercept])]
      ring
  have hupdate : s.UpdateFree captureCourse k := by
    refine ⟨?_, ?_, fun hcount => ?_⟩
    · have hpanic : ¬ (1000 : K) < |s.offset| := by
        have : (1 / 1250 : K) < 1000 := by norm_num
        linarith [h.offset]
      simp [Loop.update, Loop.stepAllowed, h.cfg, captureLoop, captureCourse, hpanic]
    · rw [htau, h.cfg]
      exact capture_limit h.offset
    · rw [htau]
      obtain ⟨hlow, hhigh⟩ := abs_le.mp (hfreq hcount)
      rw [abs_le, maxFrequency]
      constructor <;> linarith
  refine ⟨hupdate, ?_⟩
  have hupdated := (updated_of_free h.freqKnown hupdate).freq
  rw [htau] at hupdated
  rw [hupdated]
  split
  · next hfirst => exact (h.near.resolve_right fun hcontra => hcontra.1 hfirst).2
  · next hcount => exact hfreq hcount

omit [HasSqrt K] in
/-- Nor is a tick, as long as the residual stays small. -/
theorem capture_tickFree (hcfg : s.loop.cfg = captureLoop) (htau : s.loop.tau = 2)
    (hfreq : |4 * ((20 - s.loop.freq) / 1000000)| ≤ 1 / 10000)
    (hsmall : |(s.loop.chargeApplied s.now).pending| ≤ 1 / 1250) : s.TickFree := by
  obtain ⟨-, -, -, hcfreq, -⟩ := chargeApplied_keeps s.loop s.now
  obtain ⟨hctau, hccfg, -⟩ := chargeApplied_settings s.loop s.now
  have hlimit := capture_limit hsmall
  unfold Servo.TickFree
  rw [← htau, ← hctau, ← hcfg, ← hccfg] at hlimit
  rw [slew_eq (by rw [hctau, htau]; norm_num) hlimit, hctau, htau, hcfreq]
  have hrate : |slewRate 2 (s.loop.chargeApplied s.now).pending| ≤ 1 / 2500 := by
    unfold slewRate
    split
    · next hless => exact hless.le.trans (by norm_num)
    · rw [abs_div, abs_of_pos (by norm_num : (0 : K) < 2)]
      linarith
  obtain ⟨hlow, hhigh⟩ := abs_le.mp hfreq
  obtain ⟨hlow', hhigh'⟩ := abs_le.mp hrate
  rw [abs_le, maxFrequency]
  constructor <;> linarith

omit [HasSqrt K] in
theorem abs_iterate_residual_le (x : K) (j : ℕ) : |(residual 2)^[j] x| ≤ |x| := by
  induction j with
  | zero => exact le_rfl
  | succ j ih =>
    rw [Function.iterate_succ_apply']
    exact (abs_residual_le le_rfl _).trans ih

/-- No tick of a period is restrained: each finds what the ones before have left. -/
theorem capturing_ticks (h : s.Capturing) (k j : ℕ) :
    ((s.update captureCourse k).after 20 j).TickFree := by
  obtain ⟨hupdate, hfreq⟩ := capturing_update h k
  have hupdated := updated_of_free h.freqKnown hupdate
  rw [h.cfg, captureTau] at hupdated
  have hcfg := hupdated.cfg.trans h.cfg
  have hcharge : ((s.update captureCourse k).loop.chargeApplied s.now).pending = s.offset :=
    (chargeApplied_at_once hupdated.chargeFrom).trans hupdated.pending
  induction j using Nat.strong_induction_on with
  | _ j ih =>
    obtain ⟨hjcfg, hjfreq, -⟩ := after_keeps (s.update captureCourse k) 20 j
    cases j with
    | zero => exact capture_tickFree hcfg hupdated.tau hfreq (hcharge.symm ▸ h.offset)
    | succ j =>
      have hfirst : (s.update captureCourse k).tick.Tracking 2 (s.update captureCourse k).loop.freq
          s.offset := by
        refine tracking_tick (by norm_num) hcharge hupdated.tau rfl ?_ (ih 0 j.succ_pos) ?_
        · rw [hcfg]
          exact capture_limit h.offset
        · by_cases hoffset : s.offset = 0
          · rw [hupdated.haveApply, hupdated.applied, hupdated.appliedBase,
              freq_of_offset_zero h.freqKnown hupdate hoffset]
            exact h.settled
          · exact .inl hoffset
      obtain ⟨htracking, -⟩ := tracking_after le_rfl hfirst rfl ih j j.lt_succ_self
      refine capture_tickFree (hjcfg.trans hcfg) htracking.constant (hjfreq.symm ▸ hfreq) ?_
      rw [Servo.after, htracking.charge le_rfl, ← Function.iterate_succ_apply' (residual 2)]
      exact (abs_iterate_residual_le _ _).trans h.offset

/-- **A period of that servo** ends as it began. -/
theorem capturing_next (h : s.Capturing) (k : ℕ) :
    ((s.update captureCourse k).after 20 4).Capturing := by
  obtain ⟨hupdate, hfreq⟩ := capturing_update h k
  have hupdated := updated_of_free h.freqKnown hupdate
  obtain ⟨hcfg, hfreq', hlast, hknown, hupdates, hnow⟩ :=
    after_keeps (s.update captureCourse k) 20 4
  obtain ⟨hoffset, hsettled⟩ := period_settled (c := captureCourse) (le_refl (2 : K))
    (by rw [h.cfg, captureTau]) (by simp [captureCourse]) h.freqKnown hupdate
    (fun j _ => capturing_ticks h k j) h.settled
  have hoffset : ((s.update captureCourse k).after 20 4).offset = (residual 2)^[4] s.offset +
      4 * ((20 - (s.update captureCourse k).loop.freq) / 1000000) := by
    rw [← hfreq']
    exact hoffset
  -- a sixteenth of the offset is left, up to a nanosecond
  have hleft : |(residual 2)^[4] s.offset| ≤ 6 / 100000 := by
    have hclose := iterate_residual (le_refl (2 : K)) s.offset 4
    generalize (residual 2)^[4] s.offset = left at hclose
    obtain ⟨hlow, hhigh⟩ := abs_le.mp h.offset
    obtain ⟨hlow', hhigh'⟩ := abs_le.mp hclose
    norm_num at hlow' hhigh'
    rw [abs_le]
    constructor <;> linarith
  refine ⟨hcfg.trans (hupdated.cfg.trans h.cfg), hknown.trans hupdated.freqKnown, ?_, hsettled,
    .inr ⟨?_, ?_, ?_⟩⟩
  · rw [hoffset]
    exact (abs_add_le _ _).trans ((add_le_add hleft hfreq).trans (by norm_num))
  · rw [hupdates, hupdated.updates]
    exact Nat.succ_ne_zero _
  · rw [hnow, hlast, hupdated.lastUpdate]
    exact add_sub_cancel_left _ _
  · rw [hoffset, hfreq', sub_add_cancel_right, abs_neg]
    exact hleft.trans (by norm_num)

/-- The servo meets the conditions at every update, and its loop converges. -/
theorem loop_converges_farServo :
    (∀ k, (farServo (K := ℝ)).Free captureCourse k) ∧
      ∃ C : ℝ, ∀ᶠ k in Filter.atTop, |((farServo (K := ℝ)).before captureCourse k).offset|
        ≤ C * (1 / 1000000000) ∧
        |((farServo (K := ℝ)).before captureCourse k).loop.freq - 20| ≤ C * (1 / 1000) := by
  have hcapturing : ∀ k, ((farServo (K := ℝ)).before captureCourse k).Capturing := by
    intro k
    induction k with
    | zero =>
      refine ⟨?_, rfl, ?_, .inr (.inl rfl), .inl ⟨rfl, ?_⟩⟩
      · simp [Servo.before, farServo, Loop.new, captureLoop]
      · norm_num [Servo.before, farServo, abs_le]
      · norm_num [Servo.before, farServo, Loop.new, clampFreq, maxFrequency, abs_le]
    | succ k ih => exact capturing_next ih k
  have hfree : ∀ k, (farServo (K := ℝ)).Free captureCourse k := fun k =>
    ⟨(capturing_update (hcapturing k) k).1, fun j _ => capturing_ticks (hcapturing k) k j⟩
  obtain ⟨C, hC⟩ := loop_converges 4 2 (by norm_num) le_rfl (by norm_num)
    (by norm_num [allanIntercept])
  exact ⟨hfree, C, hC captureCourse farServo rfl
    (by norm_num [farServo, Loop.new, captureLoop, captureCourse]) rfl hfree⟩

end Samples

end Carillon.Discipline
