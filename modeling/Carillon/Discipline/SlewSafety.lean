/-
# The words that ticks issue, and the decay of the residual phase

Every word lies within `maxFrequency` and within the slew limit of the base frequency.  From
one tick to the next the transient of the first moves the residual phase towards zero, and
not past it: the transient is bounded by the residual, over the time constant.

A tick that finds nothing left and the word equal to the frequency issues no word, and then
the word keeps the base it was issued against.  When an update has just moved the frequency
onto a word that still held a transient (`Loop.StaleBase`), that transient goes on being
charged.
-/
import Carillon.Discipline.Accounting

namespace Carillon.Discipline

variable {K : Type} [Field K] [LinearOrder K] [IsStrictOrderedRing K]

/-! ## The transient of a word -/

/-- From a frequency within the clamp, the clamp takes away a part of what is added. -/
theorem clampFreq_add {f : K} (hf : |f| ≤ maxFrequency) (a : K) :
    |clampFreq (f + a) - f| ≤ |a| ∧ 0 ≤ a * (clampFreq (f + a) - f) := by
  obtain ⟨hlow, hhigh⟩ := abs_le.mp hf
  rcases clampFreq_cases (f + a) with ⟨hfa, hc⟩ | ⟨-, -, hc⟩ | ⟨hfa, hc⟩
  · -- clamped from below: the rest is between `a` and zero
    have ha : a ≤ 0 := by linarith
    rw [hc, abs_of_nonpos (by linarith), abs_of_nonpos ha]
    exact ⟨by linarith, mul_nonneg_of_nonpos_of_nonpos ha (by linarith)⟩
  · rw [hc, add_sub_cancel_left]
    exact ⟨le_refl _, mul_self_nonneg a⟩
  · have ha : 0 ≤ a := by linarith
    rw [hc, abs_of_nonneg (by linarith), abs_of_nonneg ha]
    exact ⟨by linarith, mul_nonneg ha (by linarith)⟩

theorem abs_clampFreq_le (f : K) : |clampFreq f| ≤ maxFrequency := by
  have h500 : (0 : K) < maxFrequency := by norm_num [maxFrequency]
  rcases clampFreq_cases f with ⟨-, hc⟩ | ⟨hl, hr, hc⟩ | ⟨-, hc⟩
  · rw [hc, abs_neg, abs_of_pos h500]
  · rw [hc]
    exact abs_le.mpr ⟨hl.le, hr.le⟩
  · rw [hc, abs_of_pos h500]

variable {l : Loop K}

/-- The transient that a tick wants has the sign of the residual phase and is at most all of
it; from a nanosecond on, at most half of it. -/
theorem slew_bound (hslew : 0 ≤ l.cfg.maxSlewPPM) (htau : 2 ≤ l.tau) :
    0 ≤ l.pending * l.slew ∧ |l.slew| ≤ |l.pending| ∧
      (1 / 1000000000 ≤ |l.pending| → |l.slew| ≤ |l.pending| / 2) := by
  have hlimit : 0 ≤ l.cfg.maxSlewPPM / 1000000 := by positivity
  have hpos : 0 < l.tau := by linarith
  unfold Loop.slew
  generalize l.cfg.maxSlewPPM / 1000000 = limit at hlimit
  split
  case isTrue hsmall =>
    exact ⟨mul_self_nonneg _, le_refl _, fun hfar => absurd hsmall (not_lt.mpr hfar)⟩
  case isFalse =>
    have hhalf : |l.pending / l.tau| ≤ |l.pending| / 2 := by
      rw [abs_div, abs_of_pos hpos]
      exact div_le_div_of_nonneg_left (abs_nonneg _) (by norm_num) htau
    have hless : |l.pending| / 2 ≤ |l.pending| := half_le_self (abs_nonneg _)
    rcases le_total 0 l.pending with hp | hp
    · have hrate : 0 ≤ l.pending / l.tau := div_nonneg hp hpos.le
      have hadj : 0 ≤ max (-limit) (min limit (l.pending / l.tau)) :=
        le_max_of_le_right (le_min hlimit hrate)
      have hle : max (-limit) (min limit (l.pending / l.tau)) ≤ l.pending / l.tau :=
        max_le (by linarith) (min_le_right _ _)
      rw [abs_of_nonneg hrate] at hhalf
      rw [abs_of_nonneg hadj]
      exact ⟨mul_nonneg hp hadj, by linarith, fun _ => by linarith⟩
    · have hrate : l.pending / l.tau ≤ 0 := div_nonpos_of_nonpos_of_nonneg hp hpos.le
      have hadj : max (-limit) (min limit (l.pending / l.tau)) ≤ 0 :=
        max_le (by linarith) ((min_le_right _ _).trans hrate)
      have hle : l.pending / l.tau ≤ max (-limit) (min limit (l.pending / l.tau)) :=
        le_max_of_le_right (le_min (by linarith) (le_refl _))
      rw [abs_of_nonpos hrate] at hhalf
      rw [abs_of_nonpos hadj]
      exact ⟨mul_nonneg_of_nonpos_of_nonpos hp hadj, by linarith, fun _ => by linarith⟩

/-- The transient that a tick wants is within the slew limit, or below a nanosecond a
second. -/
theorem abs_slew_le (hslew : 0 ≤ l.cfg.maxSlewPPM) :
    |l.slew * 1000000| ≤ max l.cfg.maxSlewPPM (1 / 1000) := by
  have hlimit : 0 ≤ l.cfg.maxSlewPPM / 1000000 := by positivity
  rw [abs_mul, abs_of_pos (by norm_num : (0 : K) < 1000000)]
  unfold Loop.slew
  split
  case isTrue hsmall =>
    refine le_max_of_le_right ?_
    calc |l.pending| * 1000000 ≤ 1 / 1000000000 * 1000000 := by gcongr
      _ = 1 / 1000 := by norm_num
  case isFalse =>
    refine le_max_of_le_left ?_
    have hadj : |max (-(l.cfg.maxSlewPPM / 1000000))
        (min (l.cfg.maxSlewPPM / 1000000) (l.pending / l.tau))| ≤ l.cfg.maxSlewPPM / 1000000 :=
      abs_le.mpr ⟨le_max_left _ _, max_le (by linarith) (min_le_left _ _)⟩
    calc _ ≤ l.cfg.maxSlewPPM / 1000000 * 1000000 := by gcongr
      _ = l.cfg.maxSlewPPM := by ring

/-- A word is within the clamp, and within the slew limit of its base. -/
theorem target_bound (hslew : 0 ≤ l.cfg.maxSlewPPM) (hfreq : |l.freq| ≤ maxFrequency) :
    |l.target| ≤ maxFrequency ∧ |l.target - l.freq| ≤ max l.cfg.maxSlewPPM (1 / 1000) := by
  unfold Loop.target
  split
  case isTrue =>
    rw [sub_self, abs_zero]
    exact ⟨hfreq, le_max_of_le_left hslew⟩
  case isFalse =>
    exact ⟨abs_clampFreq_le _, (clampFreq_add hfreq _).1.trans (abs_slew_le hslew)⟩

/-! ## From one tick to the next -/

omit [IsStrictOrderedRing K] in
/-- A tick changes the residual phase only by the charge. -/
theorem tick_pending (l : Loop K) (now : K) :
    (l.tick now).1.pending = (l.chargeApplied now).pending := by
  rcases tick_outcome l now with h | ⟨-, h⟩ <;> rw [h]
  rfl

omit [IsStrictOrderedRing K] in
theorem tick_tau (l : Loop K) (now : K) : (l.tick now).1.tau = l.tau := by
  rw [← (chargeApplied_settings l now).1]
  rcases tick_outcome l now with h | ⟨-, h⟩ <;> rw [h]
  rfl

/-- What a due accounting point makes of the residual phase. -/
theorem chargeApplied_pending_due {now : K} (h : l.Due now) :
    (l.chargeApplied now).pending =
      if l.charge now ≠ 0 ∧ |l.pending - l.charge now| < 1 / 1000000000000 then 0
      else l.pending - l.charge now := by
  have hcharge := charge_due h
  rw [chargeApplied_pending]
  split at hcharge
  case isTrue hran =>
    simp only [Bool.and_eq_true, decide_eq_true_eq] at hran
    have hne : l.charge now ≠ 0 := by
      rw [hcharge]
      exact mul_ne_zero hran.2 hran.1.2.ne'
    rw [if_pos (by simp [hran]), ← hcharge]
    simp only [hne, ne_eq, not_false_eq_true, true_and]
  case isFalse hran =>
    rw [if_neg hran, hcharge, sub_zero, if_neg (fun hno => hno.1 rfl)]

/-- The transient is a part of the residual phase, in its direction; from a nanosecond on it
is at most half of it. -/
structure Toward (p r : K) : Prop where
  sign : 0 ≤ p * r
  le : |r| ≤ |p|
  half : 1 / 1000000000 ≤ |p| → |r| ≤ |p| / 2

/-- A transient takes the residual phase towards zero in two seconds, and from a nanosecond on
not past it. -/
theorem Toward.decay {p r dt : K} (h : Toward p r) (hdt : 0 ≤ dt) (hdt2 : dt ≤ 2) :
    |p - r * dt| ≤ |p| ∧ (1 / 1000000000 ≤ |p| → 0 ≤ p * (p - r * dt)) := by
  obtain ⟨hsign, hle, hhalf⟩ := h
  rcases lt_trichotomy p 0 with hp | rfl | hp
  · have hr : r ≤ 0 := by
      by_contra hr
      exact absurd hsign (not_le.mpr (mul_neg_of_neg_of_pos hp (not_le.mp hr)))
    have hlow : r * 2 ≤ r * dt := mul_le_mul_of_nonpos_left hdt2 hr
    have hhigh : r * dt ≤ 0 := mul_nonpos_of_nonpos_of_nonneg hr hdt
    rw [abs_of_neg hp, abs_of_nonpos hr] at hle hhalf
    rw [abs_of_neg hp]
    refine ⟨abs_le.mpr ⟨by linarith, by linarith⟩, fun hfar => ?_⟩
    exact mul_nonneg_of_nonpos_of_nonpos hp.le (by linarith [hhalf hfar])
  · have hr : r = 0 := abs_nonpos_iff.mp (hle.trans_eq abs_zero)
    rw [hr, zero_mul, sub_zero]
    exact ⟨le_refl _, fun _ => (mul_zero _).ge⟩
  · have hr : 0 ≤ r := by
      by_contra hr
      exact absurd hsign (not_le.mpr (mul_neg_of_pos_of_neg hp (not_le.mp hr)))
    have hhigh : r * dt ≤ r * 2 := mul_le_mul_of_nonneg_left hdt2 hr
    have hlow : 0 ≤ r * dt := mul_nonneg hr hdt
    rw [abs_of_pos hp, abs_of_nonneg hr] at hle hhalf
    rw [abs_of_pos hp]
    refine ⟨abs_le.mpr ⟨by linarith, by linarith⟩, fun hfar => ?_⟩
    exact mul_nonneg hp.le (by linarith [hhalf hfar])

/-- After a tick that leaves something to slew, the word in the kernel slews it. -/
theorem tick_toward (hslew : 0 ≤ l.cfg.maxSlewPPM) (htau : 2 ≤ l.tau)
    (hfreq : |l.freq| ≤ maxFrequency) (now : K) (hleft : (l.tick now).1.pending ≠ 0) :
    Toward (l.tick now).1.pending (l.tick now).1.transient := by
  obtain ⟨-, -, -, hcfreq, -⟩ := chargeApplied_keeps l now
  obtain ⟨hctau, hcfg, -⟩ := chargeApplied_settings l now
  rw [tick_pending] at hleft ⊢
  have houtcome := tick_outcome l now
  rw [← hcfreq] at hfreq
  rw [← hctau] at htau
  rw [← hcfg] at hslew
  generalize l.chargeApplied now = c at *
  obtain h | ⟨⟨hzero, -⟩, -⟩ := houtcome
  · have htransient : (l.tick now).1.transient
        = (clampFreq (c.freq + c.slew * 1000000) - c.freq) / 1000000 := by
      rw [h]
      simp [Loop.transient, Loop.setApplied, Loop.target, hleft]
    obtain ⟨hpart, hdir⟩ := clampFreq_add hfreq (c.slew * 1000000)
    obtain ⟨hsign, hall, hhalf⟩ := slew_bound hslew htau
    rw [htransient]
    generalize clampFreq (c.freq + c.slew * 1000000) - c.freq = part at hpart hdir
    have hle : |part / 1000000| ≤ |c.slew| := by
      rw [abs_mul, abs_of_pos (by norm_num : (0 : K) < 1000000)] at hpart
      rw [abs_div, abs_of_pos (by norm_num : (0 : K) < 1000000)]
      exact (div_le_iff₀ (by norm_num)).mpr hpart
    refine ⟨?_, hle.trans hall, fun hfar => hle.trans (hhalf hfar)⟩
    -- the residual, what the tick wants and what the clamp leaves of it have one sign
    rcases eq_or_ne c.slew 0 with h0 | h0
    · have hpart0 : part = 0 := abs_nonpos_iff.mp (by simpa [h0] using hpart)
      rw [hpart0, zero_div, mul_zero]
    · have hprod : 0 ≤ (c.slew * c.slew) * (c.pending * (part / 1000000)) := by
        have hboth := mul_nonneg hsign hdir
        have hring : (c.slew * c.slew) * (c.pending * (part / 1000000)) =
            c.pending * c.slew * (c.slew * 1000000 * part) / 1000000 ^ 2 := by ring
        rw [hring]
        positivity
      exact nonneg_of_mul_nonneg_right hprod (mul_self_pos.mpr h0)
  · exact absurd hzero hleft

/-- The word in the kernel is the frequency, but it was issued against another base: an
update has moved the frequency onto it since. -/
def Loop.StaleBase (l : Loop K) : Prop := l.applied = l.freq ∧ l.appliedBase ≠ l.freq

instance (l : Loop K) : Decidable l.StaleBase := inferInstanceAs (Decidable (_ ∧ _))

omit [IsStrictOrderedRing K] in
/-- Unless the base is stale, a tick leaves a word whose base is the frequency. -/
theorem tick_base (hbase : ¬ l.StaleBase) (now : K) :
    (l.tick now).1.appliedBase = (l.tick now).1.freq := by
  obtain ⟨happlied, hstays, -, hfreq, -⟩ := chargeApplied_keeps l now
  rcases tick_outcome l now with h | ⟨⟨-, -, hsame⟩, h⟩
  · rw [h]
    rfl
  · rw [happlied, hfreq] at hsame
    rw [h, hstays, hfreq]
    by_contra hne
    exact hbase ⟨hsame, hne⟩

omit [IsStrictOrderedRing K] in
/-- With nothing left to slew, such a word slews nothing. -/
theorem tick_idle (hbase : ¬ l.StaleBase) {now : K} (hzero : (l.tick now).1.pending = 0) :
    (l.tick now).1.transient = 0 := by
  have hword : (l.tick now).1.applied = (l.tick now).1.freq := by
    rw [tick_pending] at hzero
    rcases tick_outcome l now with h | ⟨⟨-, -, hsame⟩, h⟩
    · rw [h]
      exact if_pos hzero
    · rw [h]
      exact hsame
  unfold Loop.transient
  rw [hword, tick_base hbase, sub_self, zero_div, ite_self]

/-- From one tick to the next the residual phase decays, unless the base was stale. -/
theorem tick_decay (hslew : 0 ≤ l.cfg.maxSlewPPM) (htau : 2 ≤ l.tau)
    (hfreq : |l.freq| ≤ maxFrequency) (hbase : ¬ l.StaleBase) {t₁ t₂ : K} (hle : t₁ ≤ t₂)
    (hnear : t₂ - t₁ ≤ 2) :
    |((l.tick t₁).1.tick t₂).1.pending| ≤ |(l.tick t₁).1.pending| ∧
      (1 / 1000000000 ≤ |(l.tick t₁).1.pending| →
        0 ≤ (l.tick t₁).1.pending * ((l.tick t₁).1.tick t₂).1.pending) := by
  have htoward : Toward (l.tick t₁).1.pending (l.tick t₁).1.transient := by
    by_cases hzero : (l.tick t₁).1.pending = 0
    · rw [tick_idle hbase hzero, hzero]
      exact ⟨by simp, le_rfl, by simp⟩
    · exact tick_toward hslew htau hfreq t₁ hzero
  obtain ⟨hfrom, htick⟩ : (l.tick t₁).1.chargeFrom = t₁ ∧ (l.tick t₁).1.haveTick = true := by
    obtain ⟨-, -, -, -, hfrom, htick⟩ := chargeApplied_keeps l t₁
    rcases tick_outcome l t₁ with h | ⟨-, h⟩ <;> rw [h] <;> exact ⟨hfrom, htick⟩
  rw [tick_pending (l.tick t₁).1 t₂]
  generalize (l.tick t₁).1 = b at *
  have hdue : b.Due t₂ := by
    unfold Loop.Due
    rw [if_pos htick, hfrom]
    exact ⟨hle, hnear⟩
  have hdecay := htoward.decay (sub_nonneg.mpr hle) hnear
  have hcharge : b.transient * (t₂ - t₁) = b.charge t₂ := by
    rw [Loop.charge, hfrom]
  rw [hcharge] at hdecay
  rw [chargeApplied_pending_due hdue]
  split
  case isTrue => simp
  case isFalse => exact hdecay

/-! ## Runs -/

/-- The frequency is within the clamp, and so was every word, which was within the slew limit
of its base. -/
structure Account.Bounded (maxSlewPPM : K) (a : Account K) : Prop where
  limit : a.loop.cfg.maxSlewPPM = maxSlewPPM
  freq : |a.loop.freq| ≤ maxFrequency
  issued : ∀ w ∈ a.issued, |w.word| ≤ maxFrequency ∧ |w.word - w.base| ≤ max maxSlewPPM (1 / 1000)

section

variable [HasSqrt K]

theorem update_freq_bound (h : |l.freq| ≤ maxFrequency) (offset : K) (poll : ℤ) (now : K)
    (synced mayStep : Bool) :
    |(l.update offset poll now synced mayStep).1.freq| ≤ maxFrequency := by
  obtain ⟨v, -, houtcome⟩ | houtcome | ⟨m, hm, houtcome⟩ :=
    update_outcome l offset poll now synced mayStep
  · rw [houtcome]
    exact h
  · rw [houtcome]
    exact h
  · rw [houtcome]
    show |(m.chargeApplied now).freq| ≤ maxFrequency
    obtain ⟨jitter, skip, hjitter⟩ := noteJitter_eq l offset
    rw [(chargeApplied_keeps m now).2.2.2.1, hm, hjitter]
    unfold Loop.learn
    dsimp only
    split_ifs
    · exact h
    · exact abs_clampFreq_le _
    · exact h
    · exact h
    · exact abs_clampFreq_le _

theorem bounded_step {maxSlewPPM : K} (hslew : 0 ≤ maxSlewPPM) (a : Account K) (op : LoopOp K)
    (b : Account K) (h : a.Bounded maxSlewPPM) (hstep : a.step op = some b) :
    b.Bounded maxSlewPPM := by
  obtain rfl : a.apply op = b := Option.some.inj hstep
  cases op with
  | update offset poll now synced mayStep =>
    have hfreq := update_freq_bound h.freq offset poll now synced mayStep
    have hcfg := (update_settings a.loop offset poll now synced mayStep).1
    have hkeeps : (a.update offset poll now synced mayStep).loop =
        (a.loop.update offset poll now synced mayStep).1 ∧
        (a.update offset poll now synced mayStep).issued = a.issued := by
      unfold Account.update
      dsimp only
      split <;> exact ⟨rfl, rfl⟩
    show (a.update offset poll now synced mayStep).Bounded maxSlewPPM
    refine ⟨?_, ?_, ?_⟩
    · rw [hkeeps.1, hcfg]
      exact h.limit
    · rw [hkeeps.1]
      exact hfreq
    · rw [hkeeps.2]
      exact h.issued
  | tick now =>
    obtain ⟨hcfg, hfreq, -⟩ := tick_keeps a.loop now
    obtain ⟨-, hccfg, -⟩ := chargeApplied_settings a.loop now
    obtain ⟨-, -, -, hcfreq, -⟩ := chargeApplied_keeps a.loop now
    have htarget :=
      target_bound (l := a.loop.chargeApplied now) (by rw [hccfg, h.limit]; exact hslew)
      (by rw [hcfreq]; exact h.freq)
    rw [hccfg, h.limit, hcfreq, ← hfreq] at htarget
    refine ⟨(congrArg LoopConfig.maxSlewPPM hcfg).trans h.limit,
      (congrArg abs hfreq).trans_le h.freq, ?_⟩
    intro w hw
    obtain hword | hold := List.mem_append.mp (show w ∈ wordsOf now (a.loop.tick now).1.freq
        (a.loop.tick now).2 ++ a.issued from hw)
    · rcases tick_outcome a.loop now with houtcome | ⟨-, houtcome⟩
      · rw [congrArg Prod.snd houtcome] at hword
        obtain rfl : w = ⟨now, (a.loop.chargeApplied now).target, (a.loop.tick now).1.freq⟩ := by
          simpa [wordsOf] using hword
        exact htarget
      · rw [congrArg Prod.snd houtcome] at hword
        simp [wordsOf] at hword
    · exact h.issued w hold

end

/-- **Slew safety.**  In every run every word is within `maxFrequency` and within
`max MaxSlewPPM 0.001` of the base it was issued against.  With a time constant of at least two
seconds, and unless the base is stale when the ticks begin, the residual phase does not grow
from a tick to the next one, at most two seconds later, and does not change its sign from a
nanosecond on. -/
theorem slew_safe [HasSqrt K] (cfg : LoopConfig K) (hslew : 0 ≤ cfg.maxSlewPPM) (freq : K)
    (known : Bool) (ops : List (LoopOp K)) (a : Account K)
    (hrun : Runs.run Account.step (Account.new cfg freq known) ops = some a) :
    (∀ w ∈ a.issued, |w.word| ≤ maxFrequency ∧
      |w.word - w.base| ≤ max cfg.maxSlewPPM (1 / 1000)) ∧
    (2 ≤ a.loop.tau → ¬ a.loop.StaleBase →
      ∀ (ts : List K) (b : Account K), b = ts.foldl Account.tick a →
      ∀ t₁ t₂, t₁ ≤ t₂ → t₂ - t₁ ≤ 2 →
        |((b.tick t₁).tick t₂).loop.pending| ≤ |(b.tick t₁).loop.pending| ∧
          (1 / 1000000000 ≤ |(b.tick t₁).loop.pending| →
            0 ≤ (b.tick t₁).loop.pending * ((b.tick t₁).tick t₂).loop.pending)) := by
  have hnew : (Account.new cfg freq known).Bounded cfg.maxSlewPPM :=
    ⟨rfl, abs_clampFreq_le freq, fun w hw => absurd hw List.not_mem_nil⟩
  have h : a.Bounded cfg.maxSlewPPM :=
    Runs.run_invariant (C := fun _ _ => True)
      (fun a op b hb _ hstep => bounded_step hslew a op b hb hstep) hnew
      (Runs.along_of_forall (fun _ _ => trivial) _ _) hrun
  refine ⟨h.issued, ?_⟩
  rintro htau hbase ts b rfl t₁ t₂ hle hnear
  clear hrun
  induction ts generalizing a with
  | nil => exact tick_decay (hslew.trans_eq h.limit.symm) htau h.freq hbase hle hnear
  | cons t ts ih =>
    -- after a tick the base is the frequency, and stays so until an update
    refine ih (a.tick t) (bounded_step hslew a (.tick t) _ h rfl) ?_ fun hstale => ?_
    · exact htau.trans_eq (tick_tau a.loop t).symm
    · exact hstale.2 (tick_base hbase t)

/-- A loop with a slew limit of 500 ppm and a short time constant. -/
def slewLoop : LoopConfig ℚ :=
  { stepThreshold := 1 / 2, stepLimit := 3, panic := 1000, panicAtStartup := true,
    maxSlewPPM := 500, precision := 1 / 1000000, timeConstant := 1 / 2, freqMeasure := 900 }

/-- 100 ms to slew and ticks every two seconds; then the offset is 750 µs, which is what the
word in the kernel moves in a second and a half, and the integrator moves the frequency onto
that word, the largest there is. -/
def slewRun : List (LoopOp ℚ) :=
  [.update (1 / 10) 2 0 false true, .tick 2, .tick 4, .tick 6, .tick 8, .tick 10, .tick 12,
    .update (75 / 100000) 2 12 false true]

def slewAccount : Account ℚ :=
  slewRun.foldl Account.apply (Account.new slewLoop 0 true)

/-- The account after the first update of the run. -/
def firstAccount : Account ℚ :=
  (slewRun.take 1).foldl Account.apply (Account.new slewLoop 0 true)

/-- After the first update the residual decays by a millisecond from tick to tick. -/
theorem slew_safe_before_second_update :
    (([2, 4].foldl Account.tick firstAccount).tick 6).loop.pending = 98 / 1000 ∧
      ((([2, 4].foldl Account.tick firstAccount).tick 6).tick 8).loop.pending = 97 / 1000 ∧
      |((([2, 4].foldl Account.tick firstAccount).tick 6).tick 8).loop.pending|
        ≤ |(([2, 4].foldl Account.tick firstAccount).tick 6).loop.pending| := by
  have h := (slew_safe slewLoop (by decide +kernel) 0 true (slewRun.take 1) firstAccount rfl).2
    (by decide +kernel) (by decide +kernel) [2, 4] _ rfl 6 8 (by decide +kernel) (by decide +kernel)
  exact ⟨by decide +kernel, by decide +kernel, h.1⟩

/-- After the second update the base is stale.  The tick that follows finds nothing left and
the word in the kernel equal to the frequency, and leaves it with its old base.  The next tick
charges a transient that does not run, and the residual grows from nothing to 750 µs. -/
theorem slew_grows_from_stale_base :
    Runs.Along Account.step Account.Paced (Account.new slewLoop 0 true)
        (slewRun ++ [.tick (27 / 2), .tick 15]) ∧
      Runs.run Account.step (Account.new slewLoop 0 true) slewRun = some slewAccount ∧
      slewAccount.loop.tau = 2 ∧ slewAccount.loop.StaleBase ∧
      (slewAccount.tick (27 / 2)).loop.pending = 0 ∧
      ((slewAccount.tick (27 / 2)).tick 15).loop.pending = -(75 / 100000) := by
  refine ⟨by decide +kernel, rfl, ?_⟩
  decide +kernel

end Carillon.Discipline
