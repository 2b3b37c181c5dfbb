/-
# The initial frequency measurement

While the frequency is unknown, `Update` measures it directly: the drift of the offset over a
window of `FreqMeasure` seconds, with the phase slewed meanwhile added back.  Here a loop with
an unknown frequency is run against a clock whose rate error is constant, with ticks and
updates at any times, and the frequency it measures is compared with the word the clock needs.

`Update` measures before it charges.  What the word in the kernel has moved since the last
accounting point is in the offset already and not yet in `slewed`, so the measurement is
exact only where there is no such phase.
-/
import Carillon.Discipline.Accounting

namespace Carillon.Discipline

variable {K : Type} [Field K] [LinearOrder K]

/-! ## A loop and the clock it measures -/

/-- A loop, the frequency word in the kernel, and the clock's offset at a time. -/
structure Plant (K : Type) where
  loop : Loop K
  word : K
  offset : K
  now : K

/-- A tick, or an update with the exact offset of the clock. -/
inductive PlantOp (K : Type) where
  | tick (now : K)
  | update (poll : ℤ) (now : K) (synced mayStep : Bool)

def PlantOp.now : PlantOp K → K
  | .tick now => now
  | .update _ now _ _ => now

/-- The kernel runs at the initial frequency, which is not known to be right. -/
def Plant.new (cfg : LoopConfig K) (freq offset now : K) : Plant K :=
  { loop := Loop.new cfg freq false, word := clampFreq freq, offset := offset, now := now }

/-- Time passes; `rate` is the word at which the offset would stay. -/
def Plant.wait (s : Plant K) (rate now : K) : Plant K :=
  { s with offset := s.offset + (rate - s.word) / 1000000 * (now - s.now), now := now }

/-- The kernel carries out an action of the loop. -/
def Plant.act (s : Plant K) : Action K → Plant K
  | .setFrequency ppm => { s with word := ppm }
  | .step seconds => { s with offset := s.offset - seconds }
  | .resetFilters => s

/-- The actions of an update. -/
def Verdict.actions : Verdict K → List (Action K)
  | .stepped actions => actions
  | .deferred | .panicRefused | .ignored | .updated => []

def Plant.tick (s : Plant K) : Plant K :=
  (s.loop.tick s.now).2.foldl Plant.act { s with loop := (s.loop.tick s.now).1 }

/-- The update steps the clock: the step policy of `Update`. -/
def Loop.wouldStep (l : Loop K) (offset : K) (mayStep : Bool) : Bool :=
  mayStep && l.stepAllowed &&
    (if l.cfg.panic < |offset| then decide (l.updates = 0) && l.cfg.panicAtStartup
      else decide (l.cfg.stepThreshold < |offset|))

/-- The call steps the clock. -/
def PlantOp.steps (rate : K) (s : Plant K) : PlantOp K → Bool
  | .tick _ => false
  | .update _ now _ mayStep => s.loop.wouldStep (s.wait rate now).offset mayStep

/-- Time does not go back, no interval between accounting points is longer than
`maxTickInterval`, and a step finds no transient in the kernel. -/
def Plant.Regular (rate : K) (s : Plant K) (op : PlantOp K) : Prop :=
  s.now ≤ op.now ∧ (s.loop.haveTick = true → op.now - s.loop.chargeFrom ≤ 2) ∧
    (op.steps rate s = true → s.loop.transient = 0)

instance (rate : K) (s : Plant K) (op : PlantOp K) : Decidable (s.Regular rate op) := by
  unfold Plant.Regular
  infer_instance

section

variable [HasSqrt K]

def Plant.update (s : Plant K) (poll : ℤ) (synced mayStep : Bool) : Plant K :=
  (s.loop.update s.offset poll s.now synced mayStep).2.actions.foldl Plant.act
    { s with loop := (s.loop.update s.offset poll s.now synced mayStep).1 }

/-- Time passes until the call, and then the call is made. -/
def Plant.step (rate : K) (s : Plant K) : PlantOp K → Option (Plant K)
  | .tick now => some (s.wait rate now).tick
  | .update poll now synced mayStep => some ((s.wait rate now).update poll synced mayStep)

end

omit [LinearOrder K] in
/-- The kernel does not change the loop. -/
theorem foldl_act_loop (actions : List (Action K)) (s : Plant K) :
    (actions.foldl Plant.act s).loop = s.loop := by
  induction actions generalizing s with
  | nil => rfl
  | cons a actions ih =>
    rw [List.foldl_cons, ih]
    cases a <;> rfl

/-! ## The window and the accounting points -/

/-- What an accounting point leaves of the measurement window. -/
theorem chargeApplied_window (l : Loop K) (now : K) :
    (l.chargeApplied now).firstTime = l.firstTime ∧
      (l.chargeApplied now).firstOffset = l.firstOffset := by
  have hnote : ∀ (l : Loop K) (moved : K), (l.noteSlew now moved).firstTime = l.firstTime ∧
      (l.noteSlew now moved).firstOffset = l.firstOffset := by
    intro l moved
    unfold Loop.noteSlew
    split <;> exact ⟨rfl, rfl⟩
  unfold Loop.chargeApplied
  dsimp only
  split
  · exact hnote _ _
  · exact hnote _ _

/-- A due accounting point adds its charge to the phase slewed in the window. -/
theorem chargeApplied_slewed [IsStrictOrderedRing K] {l : Loop K} {now : K} (h : l.Due now) :
    (l.chargeApplied now).slewed = l.slewed + l.charge now := by
  have hnote : ∀ (l : Loop K) (moved : K), (l.noteSlew now moved).slewed = l.slewed := by
    intro l moved
    unfold Loop.noteSlew
    split <;> rfl
  rw [charge_due h]
  unfold Loop.chargeApplied
  generalize hel : l.elapsed now = e
  obtain ⟨dt, t⟩ := e
  obtain rfl : { l with chargeFrom := now, haveTick := true } = t := (Prod.mk.inj hel).2
  dsimp only
  split
  · rw [hnote]
  · rw [hnote, add_zero]

/-- Nothing is charged at the accounting point itself. -/
theorem chargeApplied_charge (l : Loop K) (now : K) : (l.chargeApplied now).charge now = 0 := by
  rw [Loop.charge, (chargeApplied_keeps l now).2.2.2.2.1, sub_self, mul_zero]

/-- Two frequencies are clamped alike when they are the same or both beyond one end. -/
theorem clampFreq_eq_clampFreq [IsStrictOrderedRing K] {f g : K} :
    clampFreq f = clampFreq g ↔
      f = g ∨ maxFrequency ≤ f ∧ maxFrequency ≤ g ∨ f ≤ -maxFrequency ∧ g ≤ -maxFrequency := by
  have h500 : (0 : K) < maxFrequency := by norm_num [maxFrequency]
  constructor
  · intro h
    rcases clampFreq_cases f with ⟨hf, hcf⟩ | ⟨hf, hf', hcf⟩ | ⟨hf, hcf⟩ <;>
      rcases clampFreq_cases g with ⟨hg, hcg⟩ | ⟨hg, hg', hcg⟩ | ⟨hg, hcg⟩ <;>
      rw [hcf, hcg] at h
    · exact .inr (.inr ⟨hf, hg⟩)
    · linarith
    · linarith
    · linarith
    · exact .inl h
    · linarith
    · linarith
    · linarith
    · exact .inr (.inl ⟨hf, hg⟩)
  · rintro (rfl | ⟨hf, hg⟩ | ⟨hf, hg⟩)
    · rfl
    · unfold clampFreq
      rw [min_eq_left hf, min_eq_left hg]
    · unfold clampFreq
      rw [max_eq_left (min_le_of_right_le hf), max_eq_left (min_le_of_right_le hg)]

/-- When nothing is pending and no transient runs, an accounting point leaves it so. -/
theorem chargeApplied_idle {l : Loop K} (hpending : l.pending = 0) (hzero : l.transient = 0)
    (now : K) : (l.chargeApplied now).pending = 0 := by
  rw [chargeApplied_pending, hpending]
  split
  case isTrue hran =>
    -- the word in the kernel would have to differ from its base
    simp only [Bool.and_eq_true, decide_eq_true_eq] at hran
    unfold Loop.transient at hzero
    rw [if_pos hran.1.1] at hzero
    exact absurd hzero hran.2
  case isFalse => rfl

/-- An update that steps follows the step policy. -/
theorem wouldStep_of_stepped [HasSqrt K] {l : Loop K} {offset now : K} {poll : ℤ}
    {synced mayStep : Bool} {actions : List (Action K)}
    (h : (l.update offset poll now synced mayStep).2 = .stepped actions) :
    l.wouldStep offset mayStep = true := by
  unfold Loop.update at h
  unfold Loop.wouldStep
  dsimp only at h
  generalize (if l.updates = 0 then 0 else now - l.lastUpdate) = mu at h
  split_ifs at h ⊢ with hpanic hrefused hmay hstep hmay
  · simp_all
  · simp_all

/-- What an update makes of the window while the frequency is unknown: the first one opens
it, and the one that ends it measures. -/
theorem learn_unknown [HasSqrt K] {l : Loop K} (hunknown : l.freqKnown = false)
    (hmeasure : 0 < l.cfg.freqMeasure) (offset mu tau now : K) :
    let m := (l.noteJitter offset).learn offset mu tau now
    (m.books = l.books ∧ m.cfg = l.cfg ∧ m.updates = l.updates ∧ m.pending = l.pending) ∧
      (l.updates = 0 ∧ m.freqKnown = false ∧ m.freq = l.freq ∧
          m.firstTime = now ∧ m.firstOffset = offset ∧ m.slewed = 0 ∨
        l.updates ≠ 0 ∧
          (m.firstTime = l.firstTime ∧ m.firstOffset = l.firstOffset ∧ m.slewed = l.slewed) ∧
          (m.freqKnown = false ∧ m.freq = l.freq ∨
            m.freqKnown = true ∧ l.cfg.freqMeasure ≤ now - l.firstTime ∧
              m.freq = clampFreq (l.freq + (offset - l.firstOffset + l.slewed) /
                (now - l.firstTime) * 1000000))) := by
  obtain ⟨jitter, skip, hjitter⟩ := noteJitter_eq l offset
  rw [hjitter]
  unfold Loop.learn
  dsimp only
  rw [hunknown]
  simp only [Bool.not_false, hmeasure, decide_true, Bool.and_true, if_true]
  split_ifs with hfirst hends
  · exact ⟨⟨rfl, rfl, rfl, rfl⟩, .inl ⟨hfirst, rfl, rfl, rfl, rfl, rfl⟩⟩
  · exact ⟨⟨rfl, rfl, rfl, rfl⟩, .inr ⟨hfirst, ⟨rfl, rfl, rfl⟩, .inr ⟨rfl, hends, rfl⟩⟩⟩
  · exact ⟨⟨rfl, rfl, rfl, rfl⟩, .inr ⟨hfirst, ⟨rfl, rfl, rfl⟩, .inl ⟨rfl, rfl⟩⟩⟩

/-! ## The clock while the frequency is unknown -/

/-- The books of a loop whose frequency is unknown agree with the clock: the offset has
drifted since the window opened by the rate error, less the phase that was slewed and the
phase that has run since the last accounting point. -/
structure Plant.Measuring (rate initial : K) (s : Plant K) : Prop where
  freq : s.loop.freq = initial
  word : s.word = initial + s.loop.transient * 1000000
  base : s.loop.haveApply = true → s.loop.appliedBase = initial
  fresh : s.loop.haveTick = false →
    s.loop.updates = 0 ∧ s.loop.haveApply = false ∧ s.loop.slewLog = []
  behind : s.loop.haveTick = true → s.loop.chargeFrom ≤ s.now
  /-- Before the first update nothing is slewed. -/
  idle : s.loop.updates = 0 → s.loop.pending = 0 ∧ s.loop.transient = 0
  drift : s.loop.updates ≠ 0 →
    s.offset = s.loop.firstOffset + (rate - initial) / 1000000 * (s.now - s.loop.firstTime)
      - s.loop.slewed - s.loop.charge s.now

theorem measuring_new (cfg : LoopConfig K) (rate freq offset now : K) :
    (Plant.new cfg freq offset now).Measuring rate (clampFreq freq) := by
  have hzero : (Plant.new cfg freq offset now).loop.transient = 0 := by
    simp [Plant.new, Loop.new, Loop.transient]
  constructor
  case freq => rfl
  case word =>
    rw [hzero, zero_mul, add_zero]
    rfl
  case base => exact fun h => absurd h Bool.false_ne_true
  case fresh => exact fun _ => ⟨rfl, rfl, rfl⟩
  case behind => exact fun h => absurd h Bool.false_ne_true
  case idle => exact fun _ => ⟨rfl, hzero⟩
  case drift => exact fun h => absurd rfl h

theorem Plant.Measuring.due {rate initial : K} {s : Plant K} (h : s.Measuring rate initial)
    (hpaced : s.loop.haveTick = true → s.now - s.loop.chargeFrom ≤ 2) : s.loop.Due s.now := by
  unfold Loop.Due
  split
  case isTrue htick => exact ⟨h.behind htick, hpaced htick⟩
  case isFalse htick => exact (h.fresh (by simpa using htick)).2

/-- The estimates of an update change neither the words nor their accounts. -/
theorem Plant.Measuring.learned {rate initial : K} {s : Plant K} {m : Loop K}
    (h : s.Measuring rate initial)
    (hbooks : m.books = s.loop.books) (hupdates : m.updates = s.loop.updates)
    (hpending : m.pending = s.loop.pending) (hfreq : m.freq = s.loop.freq)
    (hwindow : s.loop.updates ≠ 0 →
      m.firstTime = s.loop.firstTime ∧ m.firstOffset = s.loop.firstOffset ∧
        m.slewed = s.loop.slewed) : { s with loop := m }.Measuring rate initial := by
  simp only [Loop.books, Prod.mk.injEq] at hbooks
  obtain ⟨hlog, -, hfrom, htick, hhave, happlied, hbase⟩ := hbooks
  have htransient : m.transient = s.loop.transient := by
    unfold Loop.transient
    rw [hhave, happlied, hbase]
  have hcharge : m.charge s.now = s.loop.charge s.now := by
    unfold Loop.charge
    rw [htransient, hfrom]
  constructor
  case freq => exact hfreq.trans h.freq
  case word =>
    dsimp only
    rw [htransient]
    exact h.word
  case base =>
    dsimp only
    rw [hhave, hbase]
    exact h.base
  case fresh =>
    dsimp only
    rw [htick, hupdates, hhave, hlog]
    exact h.fresh
  case behind =>
    dsimp only
    rw [htick, hfrom]
    exact h.behind
  case idle =>
    dsimp only
    rw [hupdates, hpending, htransient]
    exact h.idle
  case drift =>
    dsimp only
    rw [hupdates, hcharge]
    intro hne
    obtain ⟨htime, hoffset, hslewed⟩ := hwindow hne
    rw [htime, hoffset, hslewed]
    exact h.drift hne

section

variable [IsStrictOrderedRing K] {rate initial : K} {s : Plant K}

theorem Plant.Measuring.wait (h : s.Measuring rate initial) {now : K} (hforward : s.now ≤ now) :
    (s.wait rate now).Measuring rate initial := by
  refine ⟨h.freq, h.word, h.base, h.fresh, fun htick => (h.behind htick).trans hforward, h.idle, ?_⟩
  intro hupdates
  have hdrift := h.drift hupdates
  unfold Plant.wait
  dsimp only
  rw [hdrift, h.word]
  unfold Loop.charge
  ring

/-- An accounting point moves the charge from the one account to the other. -/
theorem Plant.Measuring.charged (h : s.Measuring rate initial) (hdue : s.loop.Due s.now) :
    { s with loop := s.loop.chargeApplied s.now }.Measuring rate initial := by
  obtain ⟨happlied, hbase, hhave, hfreq, hfrom, htick⟩ := chargeApplied_keeps s.loop s.now
  obtain ⟨htime, hoffset⟩ := chargeApplied_window s.loop s.now
  have hcounts := (chargeApplied_counts s.loop s.now).1
  have htransient := chargeApplied_transient s.loop s.now
  constructor
  case freq => exact hfreq.trans h.freq
  case word =>
    dsimp only
    rw [htransient]
    exact h.word
  case base => exact fun hyes => hbase.trans (h.base (hhave.symm.trans hyes))
  case fresh => exact fun hno => absurd (hno.symm.trans htick) Bool.false_ne_true
  case behind => exact fun _ => hfrom.le
  case idle =>
    intro hupdates
    obtain ⟨hpending, hzero⟩ := h.idle (hcounts.symm.trans hupdates)
    exact ⟨chargeApplied_idle hpending hzero s.now, htransient.trans hzero⟩
  case drift =>
    intro hupdates
    dsimp only
    rw [chargeApplied_charge, chargeApplied_slewed hdue, htime, hoffset,
      h.drift fun h0 => hupdates (hcounts.trans h0)]
    ring

/-- At an accounting point a word is issued; before the first update it is the frequency. -/
theorem Plant.Measuring.issued (h : s.Measuring rate initial) (hfrom : s.loop.chargeFrom = s.now)
    (htick : s.loop.haveTick = true) {total : K} (hidle : s.loop.updates = 0 → total = initial) :
    { s with loop := s.loop.setApplied total, word := total }.Measuring rate initial := by
  have htransient : (s.loop.setApplied total).transient = (total - initial) / 1000000 := by
    simp [Loop.transient, Loop.setApplied, h.freq]
  constructor
  case freq => exact h.freq
  case word =>
    dsimp only
    rw [htransient]
    ring
  case base => exact fun _ => h.freq
  case fresh => exact fun hno => absurd (hno.symm.trans htick) Bool.false_ne_true
  case behind => exact fun _ => hfrom.le
  case idle =>
    intro hupdates
    refine ⟨(h.idle hupdates).1, ?_⟩
    rw [htransient, hidle hupdates, sub_self, zero_div]
  case drift =>
    intro hupdates
    have hdrift := h.drift hupdates
    have hcharge : (s.loop.setApplied total).charge s.now = s.loop.charge s.now := by
      rw [Loop.charge, Loop.charge, show (s.loop.setApplied total).chargeFrom = s.now from hfrom,
        hfrom, sub_self, mul_zero, mul_zero]
    dsimp only
    rw [hcharge]
    exact hdrift

theorem Plant.Measuring.tick (h : s.Measuring rate initial) (hdue : s.loop.Due s.now) :
    s.tick.Measuring rate initial := by
  have hcharged := h.charged hdue
  obtain ⟨-, -, -, -, hfrom, htick⟩ := chargeApplied_keeps s.loop s.now
  unfold Plant.tick
  obtain hissued | ⟨-, hsame⟩ := tick_outcome s.loop s.now
  · rw [hissued]
    refine hcharged.issued hfrom htick ?_
    intro hupdates
    show (s.loop.chargeApplied s.now).target = initial
    rw [Loop.target, if_pos (hcharged.idle hupdates).1]
    exact hcharged.freq
  · rw [hsame]
    exact hcharged

/-- A step that finds no transient opens the window anew. -/
theorem Plant.Measuring.stepped (h : s.Measuring rate initial) (hzero : s.loop.transient = 0) :
    { s with loop := s.loop.step s.now, offset := s.offset - s.offset }.Measuring rate initial := by
  have htransient : (s.loop.step s.now).transient = 0 := by
    simp [Loop.transient, Loop.step, Loop.elapsed]
  constructor
  case freq => exact h.freq
  case word =>
    dsimp only
    rw [htransient, h.word, hzero]
  case base =>
    intro hyes
    -- the word in the kernel is its own base now, and it was the frequency
    have hsame : s.loop.applied = s.loop.appliedBase := by
      unfold Loop.transient at hzero
      rw [if_pos (show s.loop.haveApply = true from hyes), div_eq_zero_iff, sub_eq_zero] at hzero
      exact hzero.resolve_right (by norm_num)
    exact hsame.trans (h.base hyes)
  case fresh => exact fun hno => absurd hno.symm Bool.false_ne_true
  case behind => exact fun _ => le_refl _
  case idle => exact fun hupdates => absurd hupdates (Nat.succ_ne_zero _)
  case drift =>
    intro _
    rw [Loop.charge]
    dsimp only
    rw [htransient]
    simp [Loop.step, Loop.elapsed]

variable [HasSqrt K] {poll : ℤ} {synced mayStep : Bool}

/-- An update that leaves the frequency unknown: it is refused, it steps, it opens the
window, or it falls into the window. -/
theorem Plant.Measuring.update (h : s.Measuring rate initial) (hunknown : s.loop.freqKnown = false)
    (hmeasure : 0 < s.loop.cfg.freqMeasure) (hdue : s.loop.Due s.now)
    (hsteps : s.loop.wouldStep s.offset mayStep = true → s.loop.transient = 0)
    (hstill : (s.update poll synced mayStep).loop.freqKnown = false) :
    (s.update poll synced mayStep).Measuring rate initial := by
  unfold Plant.update at hstill ⊢
  obtain ⟨v, hv, hrefused⟩ | hstepped | ⟨m, hm, htaken⟩ :=
    update_outcome s.loop s.offset poll s.now synced mayStep
  · rw [hrefused]
    rcases hv with rfl | rfl | rfl <;> exact h
  · have hpolicy := wouldStep_of_stepped (congrArg Prod.snd hstepped)
    rw [hstepped]
    exact h.stepped (hsteps hpolicy)
  · have hlearn := learn_unknown hunknown hmeasure s.offset
      (if s.loop.updates = 0 then 0 else s.now - s.loop.lastUpdate)
      (s.loop.cfg.timeConstant * 2 ^ poll) s.now
    rw [← hm] at hlearn
    obtain ⟨⟨hbooks, -, hupdates, hpending⟩, hcases⟩ := hlearn
    have hdue' : m.Due s.now := hdue.congr hbooks
    rw [htaken] at hstill ⊢
    have hknown : m.freqKnown = false := (chargeApplied_settings m s.now).2.2.2.symm.trans hstill
    obtain ⟨htime, hoffset⟩ := chargeApplied_window m s.now
    -- it is enough that the offset agrees with the window after the charge
    suffices hsuff : { s with loop := m }.Measuring rate initial ∧
        s.offset = m.firstOffset + (rate - initial) / 1000000 * (s.now - m.firstTime)
          - (m.slewed + m.charge s.now) by
      obtain ⟨hlearned, hdrift⟩ := hsuff
      have hcharged := hlearned.charged hdue'
      refine ⟨hcharged.freq, hcharged.word, hcharged.base, ?_, hcharged.behind, ?_, ?_⟩
      · exact fun hno => absurd (hno.symm.trans (chargeApplied_keeps m s.now).2.2.2.2.2)
          Bool.false_ne_true
      · exact fun h0 => absurd h0 (Nat.succ_ne_zero _)
      · intro _
        show s.offset = (m.chargeApplied s.now).firstOffset + (rate - initial) / 1000000 *
          (s.now - (m.chargeApplied s.now).firstTime) - (m.chargeApplied s.now).slewed
          - (m.chargeApplied s.now).charge s.now
        rw [chargeApplied_charge, chargeApplied_slewed hdue', htime, hoffset, sub_zero]
        exact hdrift
    obtain ⟨hfirst, -, hfreq, htime, hoffset, hslewed⟩ | ⟨hmore, hwindow, hwaits | hends⟩ := hcases
    · have hlearned := h.learned hbooks hupdates hpending hfreq fun hne => absurd hfirst hne
      refine ⟨hlearned, ?_⟩
      have hcharge : m.charge s.now = 0 := by
        rw [Loop.charge, (hlearned.idle (hupdates.trans hfirst)).2, zero_mul]
      rw [hcharge, htime, hoffset, hslewed]
      ring
    · have hlearned := h.learned hbooks hupdates hpending hwaits.2 fun _ => hwindow
      refine ⟨hlearned, ?_⟩
      rw [← sub_sub]
      exact hlearned.drift fun h0 => hmore (hupdates.symm.trans h0)
    · exact absurd (hknown.symm.trans hends.1) Bool.false_ne_true

/-- The update that ends the window measures the word that the clock needs, less the phase
that has run since the last accounting point. -/
theorem Plant.Measuring.measured (h : s.Measuring rate initial)
    (hunknown : s.loop.freqKnown = false) (hmeasure : 0 < s.loop.cfg.freqMeasure)
    (hknown : (s.update poll synced mayStep).loop.freqKnown = true) :
    (s.update poll synced mayStep).loop.freq =
      clampFreq (rate - s.loop.charge s.now / (s.now - s.loop.firstTime) * 1000000) ∧
      0 < s.now - s.loop.firstTime := by
  unfold Plant.update at hknown ⊢
  obtain ⟨v, hv, hrefused⟩ | hstepped | ⟨m, hm, htaken⟩ :=
    update_outcome s.loop s.offset poll s.now synced mayStep
  · rw [hrefused] at hknown
    rcases hv with rfl | rfl | rfl <;> exact absurd (hunknown.symm.trans hknown) Bool.false_ne_true
  · rw [hstepped] at hknown
    exact absurd (hunknown.symm.trans hknown) Bool.false_ne_true
  · have hlearn := learn_unknown hunknown hmeasure s.offset
      (if s.loop.updates = 0 then 0 else s.now - s.loop.lastUpdate)
      (s.loop.cfg.timeConstant * 2 ^ poll) s.now
    rw [← hm] at hlearn
    obtain ⟨-, hcases⟩ := hlearn
    rw [htaken] at hknown ⊢
    have hknown' : m.freqKnown = true := (chargeApplied_settings m s.now).2.2.2.symm.trans hknown
    obtain ⟨-, hno, -⟩ | ⟨hmore, -, ⟨hno, -⟩ | ⟨-, hlong, hfreq⟩⟩ := hcases
    · exact absurd (hno.symm.trans hknown') Bool.false_ne_true
    · exact absurd (hno.symm.trans hknown') Bool.false_ne_true
    · have hpos : 0 < s.now - s.loop.firstTime := hmeasure.trans_le hlong
      refine ⟨?_, hpos⟩
      show (m.chargeApplied s.now).freq = _
      rw [(chargeApplied_keeps m s.now).2.2.2.1, hfreq, h.freq, h.drift hmore]
      congr 1
      field_simp
      ring

/-- One call keeps the books of the window, as long as the frequency is unknown. -/
theorem measuring_step (s : Plant K) (op : PlantOp K) (t : Plant K)
    (h : 0 < s.loop.cfg.freqMeasure ∧ (s.loop.freqKnown = false → s.Measuring rate initial))
    (hregular : s.Regular rate op) (hstep : s.step rate op = some t) :
    0 < t.loop.cfg.freqMeasure ∧ (t.loop.freqKnown = false → t.Measuring rate initial) := by
  obtain ⟨hmeasure, hmeasuring⟩ := h
  obtain ⟨hforward, hpaced, hsteps⟩ := hregular
  cases op with
  | tick now =>
    obtain rfl : (s.wait rate now).tick = t := Option.some.inj hstep
    have hloop : (s.wait rate now).tick.loop = (s.loop.tick now).1 := foldl_act_loop _ _
    obtain ⟨hcfg, -, -, hknown, -⟩ := tick_keeps s.loop now
    rw [hloop, hcfg, hknown]
    refine ⟨hmeasure, fun hunknown => ?_⟩
    have hwait := (hmeasuring hunknown).wait hforward
    exact hwait.tick (hwait.due hpaced)
  | update poll now synced mayStep =>
    obtain rfl : (s.wait rate now).update poll synced mayStep = t := Option.some.inj hstep
    have hloop : ((s.wait rate now).update poll synced mayStep).loop =
        (s.loop.update (s.wait rate now).offset poll now synced mayStep).1 := foldl_act_loop _ _
    obtain ⟨hcfg, hknown⟩ :=
      update_settings s.loop (s.wait rate now).offset poll now synced mayStep
    refine ⟨by rw [hloop, hcfg]; exact hmeasure, fun hstill => ?_⟩
    have hunknown : s.loop.freqKnown = false := by
      by_contra hyes
      rw [hloop, hknown (by simpa using hyes)] at hstill
      exact absurd hstill.symm Bool.false_ne_true
    have hwait := (hmeasuring hunknown).wait hforward
    exact hwait.update hunknown hmeasure (hwait.due hpaced) hsteps hstill

end

/-- **The initial frequency.**  A loop with an unknown frequency is run against a clock with a
constant rate error `err`, by ticks and updates of which no two accounting points are further
apart than `maxTickInterval`, and no step finds a transient in the kernel.  The update that
makes the frequency known sets it to the word that the clock needs if and only if the kernel
has run no transient since the last accounting point, or the clamp hides the difference. -/
theorem bootstrap_exact_iff [HasSqrt K] [IsStrictOrderedRing K] (cfg : LoopConfig K)
    (freq err offset start : K) (hmeasure : 0 < cfg.freqMeasure) (ops : List (PlantOp K))
    (s : Plant K)
    (hregular : Runs.Along (Plant.step (clampFreq freq + err))
      (Plant.Regular (clampFreq freq + err)) (Plant.new cfg freq offset start) ops)
    (hrun : Runs.run (Plant.step (clampFreq freq + err)) (Plant.new cfg freq offset start) ops =
      some s)
    (poll : ℤ) (now : K) (synced mayStep : Bool) (t : Plant K)
    (hlast : s.Regular (clampFreq freq + err) (.update poll now synced mayStep))
    (hstep : s.step (clampFreq freq + err) (.update poll now synced mayStep) = some t)
    (hunknown : s.loop.freqKnown = false) (hknown : t.loop.freqKnown = true) :
    t.loop.freq = clampFreq (clampFreq freq + err) ↔
      s.loop.transient = 0 ∨ now = s.loop.chargeFrom ∨
      maxFrequency ≤ clampFreq freq + err ∧ maxFrequency ≤ clampFreq freq + err -
        s.loop.charge now / (now - s.loop.firstTime) * 1000000 ∨
      clampFreq freq + err ≤ -maxFrequency ∧ clampFreq freq + err -
        s.loop.charge now / (now - s.loop.firstTime) * 1000000 ≤ -maxFrequency := by
  obtain ⟨hpos, hmeasuring⟩ := Runs.run_invariant
    (I := fun s : Plant K => 0 < s.loop.cfg.freqMeasure ∧
      (s.loop.freqKnown = false → s.Measuring (clampFreq freq + err) (clampFreq freq)))
    measuring_step ⟨hmeasure, fun _ => measuring_new cfg _ freq offset start⟩ hregular hrun
  obtain rfl : (s.wait (clampFreq freq + err) now).update poll synced mayStep = t :=
    Option.some.inj hstep
  have hwait :
      (s.wait (clampFreq freq + err) now).Measuring (clampFreq freq + err) (clampFreq freq) :=
    (hmeasuring hunknown).wait hlast.1
  obtain ⟨hfreq, hlong⟩ := hwait.measured hunknown hpos hknown
  generalize clampFreq freq + err = rate at *
  have hne : now - s.loop.firstTime ≠ 0 := hlong.ne'
  have hcharge : rate - s.loop.charge now / (now - s.loop.firstTime) * 1000000 = rate ↔
      s.loop.transient = 0 ∨ now = s.loop.chargeFrom := by
    rw [sub_eq_self, mul_eq_zero, div_eq_zero_iff, Loop.charge, mul_eq_zero, sub_eq_zero]
    constructor
    · rintro ((h | h) | h)
      · exact h
      · exact absurd h hne
      · exact absurd h (by norm_num)
    · exact fun h => .inl (.inl h)
  rw [hfreq]
  refine clampFreq_eq_clampFreq.trans ?_
  show rate - s.loop.charge now / (now - s.loop.firstTime) * 1000000 = rate ∨ _ ↔ _
  rw [hcharge, or_assoc]
  exact or_congr_right (or_congr_right (or_congr and_comm and_comm))

/-- A loop whose window is 4 s. -/
def bootLoop : LoopConfig ℚ :=
  { stepThreshold := 1 / 2, stepLimit := 3, panic := 1000, panicAtStartup := true,
    maxSlewPPM := 500, precision := 1 / 1000000, timeConstant := 4, freqMeasure := 4 }

/-- A clock that is 100 ms off; the loop starts with the frequency 0. -/
def bootPlant : Plant ℚ := Plant.new bootLoop 0 (1 / 10) 0

/-- The window opens, and four seconds pass. -/
def bootRun : List (PlantOp ℚ) :=
  [.update 4 0 false true, .tick 1, .tick 2, .tick 3, .tick 4]

/-- A clock that needs 10 ppm, and an update at the instant of the last tick. -/
theorem bootstrap_exact_at_tick :
    ∃ s t : Plant ℚ, Runs.run (Plant.step (clampFreq 0 + 10)) bootPlant bootRun = some s ∧
      s.step (clampFreq 0 + 10) (.update 4 4 false true) = some t ∧
      t.loop.freq = clampFreq (clampFreq 0 + 10) := by
  have hregular : Runs.Along (Plant.step (clampFreq 0 + 10)) (Plant.Regular (clampFreq 0 + 10))
      bootPlant bootRun := by
    decide +kernel
  have hrun : (Runs.run (Plant.step (clampFreq 0 + 10)) bootPlant bootRun).map (fun s =>
      (decide (s.Regular (clampFreq 0 + 10) (.update 4 4 false true)), s.loop.freqKnown,
        s.loop.chargeFrom, (s.step (clampFreq 0 + 10) (.update 4 4 false true)).map
          fun t => t.loop.freqKnown)) = some (true, false, 4, some true) := by
    decide +kernel
  obtain ⟨s, hs, hstate⟩ := Option.map_eq_some_iff.mp hrun
  simp only [Prod.mk.injEq, decide_eq_true_eq] at hstate
  obtain ⟨hlast, hunknown, hfrom, hend⟩ := hstate
  obtain ⟨t, ht, hknown⟩ := Option.map_eq_some_iff.mp hend
  exact ⟨s, t, hs, ht, (bootstrap_exact_iff bootLoop 0 10 (1 / 10) 0 (by decide +kernel) bootRun s
    hregular hs 4 4 false true t hlast ht hunknown hknown).mpr (.inr (.inl hfrom.symm))⟩

/-- A second after the tick the update measures -90 ppm instead of 10 ppm: the 500 ppm that
the kernel has run since are in the offset and not in `slewed`. -/
theorem bootstrap_misses_between_ticks :
    Runs.Along (Plant.step (clampFreq 0 + 10)) (Plant.Regular (clampFreq 0 + 10)) bootPlant
        (bootRun ++ [.update 4 5 false true]) ∧
      ((Runs.run (Plant.step (clampFreq 0 + 10)) bootPlant bootRun).map
        fun s => s.loop.freqKnown) = some false ∧
      ((Runs.run (Plant.step (clampFreq 0 + 10)) bootPlant
        (bootRun ++ [.update 4 5 false true])).map fun t => (t.loop.freqKnown, t.loop.freq)) =
      some (true, -90) ∧ clampFreq (clampFreq 0 + 10 : ℚ) = 10 := by
  decide +kernel

end Carillon.Discipline
