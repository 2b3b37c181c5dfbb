/-
# Phase accounting: what the loop believes to have corrected

The loop issues frequency words and keeps a log of the phase they have moved, which
is pruned to `slewLogSpan` and read by bisection and interpolation; `Pending` is
debited by the same amounts.  Here a loop is run together with the list of the
words it issued.  The phase those words have moved is an integral of a piecewise
constant rate (`Rates.integral`), and the log and `Pending` agree with it.

A step does not change the word in the kernel but stops counting it as a
transient; `running` records that, and `issued` does not.
-/
import Carillon.Discipline.Loop
import Carillon.Lib.Rates
import Carillon.Lib.Runs

namespace Carillon.Discipline

variable {K : Type} [LinearOrder K]

/-! ## Pruning -/

theorem dropSlew_suffix (cut : K) (log : List (SlewPoint K)) : dropSlew cut log <:+ log := by
  induction log with
  | nil => exact List.suffix_refl _
  | cons p log ih =>
    cases log with
    | nil => exact List.suffix_refl _
    | cons q log =>
      unfold dropSlew
      split
      · exact ih.trans (List.suffix_cons p _)
      · exact List.suffix_refl _

theorem dropSlew_getLast (cut : K) (log : List (SlewPoint K)) :
    (dropSlew cut log).getLast? = log.getLast? := by
  induction log with
  | nil => rfl
  | cons p log ih =>
    cases log with
    | nil => rfl
    | cons q log =>
      unfold dropSlew
      split
      · rw [ih, List.getLast?_cons_cons]
      · rfl

variable {p : SlewPoint K}

/-- The first point that is kept was the first before, or answers for the cut. -/
theorem dropSlew_head (cut : K) (log : List (SlewPoint K)) (h : (dropSlew cut log).head? = some p) :
    log.head? = some p ∨ p.at_ ≤ cut := by
  induction log with
  | nil => exact .inl h
  | cons q log ih =>
    cases log with
    | nil => exact .inl h
    | cons r log =>
      unfold dropSlew at h
      split at h
      case isTrue hr =>
        rcases ih h with hhead | hcut
        · rw [List.head?_cons, Option.some.injEq] at hhead
          exact .inr (hhead ▸ hr)
        · exact .inr hcut
      case isFalse => exact .inl h

/-! ## Bisection -/

/-- The bisection ends at neighbours that enclose `t`. -/
theorem bisect_spec (log : List (SlewPoint K)) (t : K) (fuel lo hi : ℕ) (hlt : lo < hi)
    (hfuel : hi - lo ≤ fuel) {p q : SlewPoint K} (hp : log[lo]? = some p) (hpt : p.at_ ≤ t)
    (hq : log[hi]? = some q) (hqt : t < q.at_) :
    ∃ i a b, bisect log t fuel lo hi = (i, i + 1) ∧ log[i]? = some a ∧ a.at_ ≤ t ∧
      log[i + 1]? = some b ∧ t < b.at_ := by
  induction fuel generalizing lo hi p q with
  | zero => omega
  | succ fuel ih =>
    unfold bisect
    split
    case isTrue hgap =>
      dsimp only
      have hmid : (lo + hi) / 2 < log.length := by
        have hlen : hi < log.length := (List.getElem?_eq_some_iff.mp hq).1
        omega
      have hget : log[(lo + hi) / 2]? = some log[(lo + hi) / 2] := List.getElem?_eq_getElem hmid
      rw [hget, Option.elim_some]
      by_cases hle : log[(lo + hi) / 2].at_ ≤ t
      · rw [if_pos (decide_eq_true hle)]
        exact ih _ _ (by omega) (by omega) hget hle hq hqt
      · rw [if_neg (by simpa using hle)]
        exact ih _ _ (by omega) (by omega) hp hpt hget (not_le.mp hle)
    case isFalse hgap =>
      have hnext : hi = lo + 1 := by omega
      subst hnext
      exact ⟨lo, p, q, rfl, hp, hpt, hq, hqt⟩

/-! ## The log as a record of an integral -/

variable [Field K]

open Rates (Change integral)

/-- `slewLogSpan`, in seconds. -/
def slewLogSpan : K := 2 * allanIntercept

/-- Between the two points the phase moved at a constant rate, and the log says how
much. -/
def Segment (cs : List (Change K)) (p q : SlewPoint K) : Prop :=
  p.at_ ≤ q.at_ ∧ ∃ r, q.cum - p.cum = r * (q.at_ - p.at_) ∧
    ∀ t, p.at_ ≤ t → t ≤ q.at_ → integral cs p.at_ t = r * (t - p.at_)

variable {cs : List (Change K)}

/-- Every point of the log counts from the first one. -/
theorem segments_cum {log : List (SlewPoint K)} (h : (p :: log).IsChain (Segment cs)) :
    ∀ q ∈ p :: log, p.at_ ≤ q.at_ ∧ q.cum = p.cum + integral cs p.at_ q.at_ := by
  induction log generalizing p with
  | nil =>
    intro q hq
    rw [List.mem_singleton.mp hq, Rates.integral_self, add_zero]
    exact ⟨le_refl _, rfl⟩
  | cons q log ih =>
    obtain ⟨⟨hle, r, hcum, hrate⟩, hchain⟩ := List.isChain_cons_cons.mp h
    have hpq : q.cum = p.cum + integral cs p.at_ q.at_ := by
      rw [hrate q.at_ hle (le_refl _), ← hcum]
      ring
    intro s hs
    rcases List.mem_cons.mp hs with rfl | hs
    · rw [Rates.integral_self, add_zero]
      exact ⟨le_refl _, rfl⟩
    · obtain ⟨hqs, hs⟩ := ih hchain s hs
      refine ⟨hle.trans hqs, ?_⟩
      rw [hs, hpq, ← Rates.integral_add cs p.at_ q.at_ s.at_]
      ring

/-- What the word in the kernel moves in a second, as the loop counts it. -/
def Loop.transient (l : Loop K) : K :=
  if l.haveApply then (l.applied - l.appliedBase) / 1000000 else 0

/-- The log of the loop records what `cs` has moved since `stepAt`, as far back as
the log reaches. -/
structure Recorded (cs : List (Change K)) (stepAt : Option K) (l : Loop K) : Prop where
  chain : l.slewLog.IsChain (Segment cs)
  last : ∀ p, l.slewLog.getLast? = some p → p.at_ = l.chargeFrom ∧ p.cum = l.cumSlew
  /-- Before its first point nothing had moved, or the log does not answer for it. -/
  first : ∀ p, l.slewLog.head? = some p → ∀ x, (∀ s ∈ stepAt, s ≤ x) →
    l.chargeFrom - slewLogSpan ≤ x → x ≤ p.at_ → integral cs x p.at_ = 0
  empty : l.slewLog = [] → ∀ x y, (∀ s ∈ stepAt, s ≤ x) → (∀ s ∈ stepAt, s ≤ y) →
    integral cs x y = 0
  /-- Since the last accounting point the word in the kernel has run on. -/
  runs : ∀ x y, l.chargeFrom ≤ x → l.chargeFrom ≤ y → integral cs x y = l.transient * (y - x)

variable {stepAt : Option K} {l : Loop K}

/-- Where the log answers, it counts from its first point. -/
theorem Recorded.cumulativeSlew_eq [IsStrictOrderedRing K] (h : Recorded cs stepAt l)
    (hp : l.slewLog.head? = some p) {t : K} (hstep : ∀ s ∈ stepAt, s ≤ t)
    (hspan : l.chargeFrom - slewLogSpan ≤ t) :
    l.cumulativeSlew t = p.cum + integral cs p.at_ t := by
  obtain ⟨log, hlog⟩ : ∃ log, l.slewLog = p :: log := List.head?_eq_some_iff.mp hp
  have hchain := h.chain
  rw [hlog] at hchain
  have hcum := segments_cum hchain
  obtain ⟨q, hq⟩ : ∃ q, l.slewLog.getLast? = some q := by
    rw [hlog]
    exact ⟨_, List.getLast?_eq_some_getLast (List.cons_ne_nil p log)⟩
  obtain ⟨hqat, -⟩ := h.last q hq
  have hqmem : q ∈ p :: log := hlog ▸ List.mem_of_getLast? hq
  unfold Loop.cumulativeSlew
  rw [hp, hq]
  dsimp only
  split
  case isTrue hbefore =>
    have hzero := h.first p hp t hstep hspan hbefore
    rw [Rates.integral_swap, hzero, neg_zero, add_zero]
  case isFalse hbefore =>
    rw [not_le] at hbefore
    split
    case isTrue hafter =>
      -- the running word
      have hrun : integral cs q.at_ t = l.transient * (t - q.at_) :=
        h.runs q.at_ t hqat.ge (hqat.ge.trans hafter)
      rw [← Rates.integral_add cs p.at_ q.at_ t, hrun, ← add_assoc, ← (hcum q hqmem).2]
      unfold Loop.transient
      split <;> ring
    case isFalse hafter =>
      -- strictly inside the log: the bisection and the interpolation
      rw [not_le] at hafter
      have hlength : 1 < l.slewLog.length := by
        rw [hlog]
        cases log with
        | nil =>
          rw [hlog] at hq
          have : p = q := by simpa using hq
          exact absurd (this ▸ hafter) (not_lt.mpr hbefore.le)
        | cons _ _ => simp
      have hfirst : l.slewLog[0]? = some p := by rw [← List.head?_eq_getElem?, hp]
      have hlast : l.slewLog[l.slewLog.length - 1]? = some q := by
        rw [← List.getLast?_eq_getElem?, hq]
      obtain ⟨i, a, b, hbisect, ha, hat, hb, hbt⟩ := bisect_spec l.slewLog t l.slewLog.length 0
        (l.slewLog.length - 1) (by omega) (by omega) hfirst hbefore.le hlast hafter
      rw [hbisect]
      dsimp only
      rw [ha, hb, Option.getD_some, Option.getD_some]
      have hseg : Segment cs a b := by
        obtain ⟨hi, hib⟩ := List.getElem?_eq_some_iff.mp hb
        obtain ⟨hi', hia⟩ := List.getElem?_eq_some_iff.mp ha
        have := h.chain.getElem i hi
        rw [hia, hib] at this
        exact this
      obtain ⟨-, r, hcumab, hrate⟩ := hseg
      have hamem : a ∈ p :: log := hlog ▸ List.mem_of_getElem? ha
      have hne : b.at_ - a.at_ ≠ 0 := sub_ne_zero.mpr (hat.trans_lt hbt).ne'
      rw [if_neg (hat.trans_lt hbt).ne', ← Rates.integral_add cs p.at_ a.at_ t, hrate t hat hbt.le,
        hcumab, (hcum a hamem).2]
      field_simp
      ring

/-- **The log answers exactly.**  Over any interval that ends now or later, no older
than the span and not before the last step, `AppliedSince` is the integral. -/
theorem Recorded.appliedSince_eq [IsStrictOrderedRing K] (h : Recorded cs stepAt l) {at_ now : K}
    (hle : at_ ≤ now) (hstep : ∀ s ∈ stepAt, s ≤ at_) (hspan : l.chargeFrom - slewLogSpan ≤ at_) :
    l.appliedSince at_ now = integral cs at_ now := by
  have hstep' : ∀ s ∈ stepAt, s ≤ now := fun s hs => (hstep s hs).trans hle
  unfold Loop.appliedSince
  split
  case isTrue hge => rw [le_antisymm hle hge, Rates.integral_self]
  case isFalse =>
    cases hp : l.slewLog.head? with
    | none =>
      have hnil : l.slewLog = [] := List.head?_eq_none_iff.mp hp
      have hzero : ∀ t, l.cumulativeSlew t = 0 := by
        intro t
        unfold Loop.cumulativeSlew
        rw [hp]
      rw [hzero, hzero, h.empty hnil at_ now hstep hstep', sub_zero]
    | some p =>
      rw [h.cumulativeSlew_eq hp hstep hspan, h.cumulativeSlew_eq hp hstep' (hspan.trans hle),
        ← Rates.integral_add cs p.at_ at_ now]
      ring

/-! ## Charging an interval -/

/-- The part of a loop that the accounting reads: all of it but the estimates. -/
def Loop.books (l : Loop K) : List (SlewPoint K) × K × K × Bool × Bool × K × K :=
  (l.slewLog, l.cumSlew, l.chargeFrom, l.haveTick, l.haveApply, l.applied, l.appliedBase)

theorem Recorded.congr {l l' : Loop K} (h : Recorded cs stepAt l) (hbooks : l'.books = l.books) :
    Recorded cs stepAt l' := by
  simp only [Loop.books, Prod.mk.injEq] at hbooks
  obtain ⟨hlog, hcum, hfrom, -, hhave, happlied, hbase⟩ := hbooks
  have htransient : l'.transient = l.transient := by
    unfold Loop.transient
    rw [hhave, happlied, hbase]
  refine ⟨hlog ▸ h.chain, ?_, ?_, ?_, ?_⟩
  · rw [hlog, hfrom, hcum]
    exact h.last
  · rw [hlog, hfrom]
    exact h.first
  · rw [hlog]
    exact h.empty
  · rw [hfrom, htransient]
    exact h.runs

/-- What the accounting of an interval leaves alone. -/
theorem chargeApplied_keeps (l : Loop K) (now : K) :
    (l.chargeApplied now).applied = l.applied ∧ (l.chargeApplied now).appliedBase = l.appliedBase ∧
      (l.chargeApplied now).haveApply = l.haveApply ∧ (l.chargeApplied now).freq = l.freq ∧
      (l.chargeApplied now).chargeFrom = now ∧ (l.chargeApplied now).haveTick = true := by
  have hnote : ∀ (l : Loop K) (now moved : K),
      (l.noteSlew now moved).applied = l.applied ∧
      (l.noteSlew now moved).appliedBase = l.appliedBase ∧
      (l.noteSlew now moved).haveApply = l.haveApply ∧ (l.noteSlew now moved).freq = l.freq ∧
      (l.noteSlew now moved).chargeFrom = l.chargeFrom ∧
      (l.noteSlew now moved).haveTick = l.haveTick := by
    intro l now moved
    unfold Loop.noteSlew
    split <;> exact ⟨rfl, rfl, rfl, rfl, rfl, rfl⟩
  unfold Loop.chargeApplied
  dsimp only
  split
  · exact hnote _ _ _
  · exact hnote _ _ _

/-- What a tick leaves alone. -/
theorem tick_keeps (l : Loop K) (now : K) :
    (l.tick now).1.cfg = l.cfg ∧ (l.tick now).1.freq = l.freq ∧
      (l.tick now).1.lastUpdate = l.lastUpdate ∧ (l.tick now).1.freqKnown = l.freqKnown ∧
      (l.tick now).1.updates = l.updates := by
  obtain ⟨-, -, -, hfreq, -⟩ := chargeApplied_keeps l now
  obtain ⟨-, hcfg, hlast, hknown⟩ := chargeApplied_settings l now
  rcases tick_outcome l now with h | ⟨-, h⟩
  · rw [h]
    exact ⟨hcfg, hfreq, hlast, hknown, (chargeApplied_counts l now).1⟩
  · rw [h]
    exact ⟨hcfg, hfreq, hlast, hknown, (chargeApplied_counts l now).1⟩

/-- The interval since the last accounting point is short enough to be charged in
full. -/
def Loop.Due (l : Loop K) (now : K) : Prop :=
  if l.haveTick then l.chargeFrom ≤ now ∧ now - l.chargeFrom ≤ 2
  else l.haveApply = false ∧ l.slewLog = []

theorem Loop.Due.congr {l l' : Loop K} {now : K} (h : l.Due now) (hbooks : l'.books = l.books) :
    l'.Due now := by
  simp only [Loop.books, Prod.mk.injEq] at hbooks
  obtain ⟨hlog, -, hfrom, htick, hhave, -, -⟩ := hbooks
  unfold Loop.Due at h ⊢
  rw [hlog, hfrom, htick, hhave]
  exact h

theorem elapsed_due [IsStrictOrderedRing K] {now : K} (h : l.Due now) :
    (l.elapsed now).1 = if l.haveTick then now - l.chargeFrom else 0 := by
  unfold Loop.Due at h
  unfold Loop.elapsed
  dsimp only
  split
  case isTrue htick =>
    rw [if_pos htick] at h
    rw [if_neg (by linarith [h.1]), if_neg (by linarith [h.2])]
  case isFalse => rfl

/-- An accounting point in the log, when the clock has not gone back. -/
theorem noteSlew_forward (l : Loop K) (now moved : K)
    (hlast : ∀ p, l.slewLog.getLast? = some p → p.at_ ≤ now) :
    l.noteSlew now moved =
      { l with
        cumSlew := l.cumSlew + moved
        slewLog := dropSlew (now - slewLogSpan) (l.slewLog ++ [⟨now, l.cumSlew + moved⟩]) } := by
  have hforward : (l.slewLog.getLast?.elim false fun p => decide (now < p.at_)) = false := by
    cases hp : l.slewLog.getLast? with
    | none => rfl
    | some p => simpa using hlast p hp
  unfold Loop.noteSlew
  rw [hforward, if_neg Bool.false_ne_true]
  rfl

/-- What a due accounting point charges. -/
def Loop.charge (l : Loop K) (now : K) : K :=
  l.transient * (now - l.chargeFrom)

/-- A due accounting point debits the charge: what ran for the time that is counted, or
nothing. -/
theorem charge_due [IsStrictOrderedRing K] {now : K} (h : l.Due now) :
    l.charge now =
      if l.haveApply && decide (0 < (l.elapsed now).1) &&
          decide ((l.applied - l.appliedBase) / 1000000 ≠ 0) then
        (l.applied - l.appliedBase) / 1000000 * (l.elapsed now).1
      else 0 := by
  have hdt := elapsed_due h
  unfold Loop.Due at h
  unfold Loop.charge Loop.transient
  cases hhave : l.haveApply with
  | false => simp
  | true =>
    have htick : l.haveTick = true := by
      by_contra htick
      rw [if_neg htick] at h
      exact absurd (hhave.symm.trans h.1) (by decide)
    rw [if_pos htick] at h hdt
    rw [hdt, if_pos rfl]
    split
    case isTrue => rfl
    case isFalse hran =>
      -- nothing ran: no time, or no transient
      by_cases hran0 : (l.applied - l.appliedBase) / 1000000 = 0
      · rw [hran0, zero_mul]
      · have hle : ¬0 < now - l.chargeFrom := by
          intro hpos
          exact hran (by simp only [hpos, hran0, ne_eq, not_false_eq_true, decide_true,
            Bool.and_true])
        have hnow : now - l.chargeFrom = 0 := le_antisymm (not_lt.mp hle) (sub_nonneg.mpr h.1)
        rw [hnow, mul_zero]

/-- **One accounting point.**  The phase moved since the last one is debited, up to
the snap, and the log gets a new point. -/
theorem chargeApplied_due [IsStrictOrderedRing K] {now : K} (h : l.Due now)
    (hlast : ∀ p, l.slewLog.getLast? = some p → p.at_ ≤ now) :
    ((l.chargeApplied now).pending = l.pending - l.charge now ∨
      (l.chargeApplied now).pending = 0 ∧ |l.pending - l.charge now| < 1 / 1000000000000) ∧
    (l.chargeApplied now).cumSlew = l.cumSlew + l.charge now ∧
    (l.chargeApplied now).slewLog =
      dropSlew (now - slewLogSpan) (l.slewLog ++ [⟨now, l.cumSlew + l.charge now⟩]) := by
  rw [charge_due h]
  unfold Loop.chargeApplied
  generalize hel : l.elapsed now = e
  obtain ⟨dt, t⟩ := e
  obtain rfl : { l with chargeFrom := now, haveTick := true } = t := (Prod.mk.inj hel).2
  dsimp only
  split
  case isTrue =>
    rw [noteSlew_forward _ now _ (by exact hlast)]
    refine ⟨?_, rfl, rfl⟩
    dsimp only
    split
    case isTrue hsnap => exact .inr ⟨rfl, hsnap⟩
    case isFalse => exact .inl rfl
  case isFalse =>
    rw [noteSlew_forward _ now _ (by exact hlast)]
    exact ⟨.inl (sub_zero _).symm, rfl, rfl⟩

theorem chargeApplied_transient (l : Loop K) (now : K) :
    (l.chargeApplied now).transient = l.transient := by
  obtain ⟨happlied, hbase, hhave, -⟩ := chargeApplied_keeps l now
  unfold Loop.transient
  rw [happlied, hbase, hhave]

/-- Unless the loop is fresh, a due accounting point is not in the past. -/
theorem Loop.Due.chargeFrom_le {now : K} (h : l.Due now)
    (hfresh : ¬(l.haveTick = false ∧ l.haveApply = false ∧ l.slewLog = [])) :
    l.chargeFrom ≤ now := by
  unfold Loop.Due at h
  cases htick : l.haveTick with
  | true =>
    rw [if_pos htick] at h
    exact h.1
  | false =>
    rw [if_neg (by simp [htick])] at h
    exact absurd ⟨htick, h⟩ hfresh

theorem Recorded.last_le {now : K} (h : Recorded cs stepAt l) (hdue : l.Due now) :
    ∀ p, l.slewLog.getLast? = some p → p.at_ ≤ now := by
  intro p hp
  refine (h.last p hp).1.trans_le (hdue.chargeFrom_le ?_)
  rintro ⟨-, -, hnil⟩
  rw [hnil] at hp
  cases hp

/-- Pruning drops no point that is still asked for. -/
theorem dropSlew_answers {cut : K} {log : List (SlewPoint K)} {C : K → Prop}
    (h : ∀ p, log.head? = some p → ∀ x, C x → cut ≤ x → x ≤ p.at_ → integral cs x p.at_ = 0) :
    ∀ p, (dropSlew cut log).head? = some p → ∀ x, C x → cut ≤ x → x ≤ p.at_ →
      integral cs x p.at_ = 0 := by
  intro p hp x hC hx hxp
  rcases dropSlew_head cut log hp with hhead | hcut
  · exact h p hhead x hC hx hxp
  · rw [le_antisymm hxp (hcut.trans hx), Rates.integral_self]

/-- **An accounting point keeps the record.** -/
theorem Recorded.charged [IsStrictOrderedRing K] {now : K} (h : Recorded cs stepAt l)
    (hdue : l.Due now) (hstep : ∀ s ∈ stepAt, s ≤ now) (hfresh : l.haveTick = false → cs = []) :
    Recorded cs stepAt (l.chargeApplied now) ∧ (l.chargeApplied now).slewLog ≠ [] := by
  have hfrom : l.slewLog ≠ [] ∨ cs ≠ [] → l.chargeFrom ≤ now := by
    rintro (hlog | hcs)
    · exact hdue.chargeFrom_le fun hfresh => hlog hfresh.2.2
    · exact hdue.chargeFrom_le fun hfresh' => hcs (hfresh hfresh'.1)
  have hlast := h.last_le hdue
  obtain ⟨-, hcum, hlog⟩ := chargeApplied_due hdue hlast
  obtain ⟨-, -, -, -, hnow, -⟩ := chargeApplied_keeps l now
  have htransient := chargeApplied_transient l now
  generalize l.chargeApplied now = c at hcum hlog hnow htransient ⊢
  -- the log before it is pruned
  have hchain :
      (l.slewLog ++ [SlewPoint.mk now (l.cumSlew + l.charge now)]).IsChain (Segment cs) := by
    rw [List.isChain_append]
    refine ⟨h.chain, List.isChain_singleton _, ?_⟩
    intro p hp q hq
    obtain rfl : _ = q := Option.some.inj hq
    obtain ⟨hpat, hpcum⟩ := h.last p hp
    refine ⟨hlast p hp, l.transient, ?_, ?_⟩
    · rw [hpcum, hpat]
      unfold Loop.charge
      ring
    · intro t ht _
      rw [hpat] at ht ⊢
      exact h.runs _ _ (le_refl _) ht
  have hhead : ∀ p, (l.slewLog ++ [SlewPoint.mk now (l.cumSlew + l.charge now)]).head? = some p →
      ∀ x, (∀ s ∈ stepAt, s ≤ x) → now - slewLogSpan ≤ x → x ≤ p.at_ → integral cs x p.at_ = 0 := by
    intro p hp x hx hspan hxp
    cases hl : l.slewLog with
    | nil =>
      rw [hl] at hp
      obtain rfl : _ = p := Option.some.inj hp
      exact h.empty hl x now hx hstep
    | cons q log =>
      rw [hl] at hp
      have hp' : l.slewLog.head? = some p := by
        rw [hl]
        exact hp
      have hle := hfrom (.inl (by rw [hl]; exact List.cons_ne_nil q log))
      exact h.first p hp' x hx (by linarith) hxp
  have hsome : c.slewLog.getLast? = some ⟨now, l.cumSlew + l.charge now⟩ := by
    rw [hlog, dropSlew_getLast, List.getLast?_append, List.getLast?_singleton, Option.some_or]
  have hne : c.slewLog ≠ [] := by
    intro hnil
    rw [hnil] at hsome
    cases hsome
  refine ⟨⟨?_, ?_, ?_, ?_, ?_⟩, hne⟩
  · rw [hlog]
    exact hchain.suffix (dropSlew_suffix _ _)
  · intro p hp
    obtain rfl : _ = p := Option.some.inj (hsome.symm.trans hp)
    exact ⟨hnow.symm, hcum.symm⟩
  · rw [hlog, hnow]
    exact dropSlew_answers hhead
  · intro hnil
    exact absurd hnil hne
  · intro x y hx hy
    rw [hnow] at hx hy
    rw [htransient]
    by_cases hcs : cs = []
    · -- the only rate so far is zero
      subst hcs
      have hzero := h.runs (max x l.chargeFrom) (max x l.chargeFrom + 1) (le_max_right _ _)
        ((le_max_right _ _).trans (by linarith))
      rw [Rates.integral_nil, add_sub_cancel_left, mul_one] at hzero
      rw [← hzero, zero_mul, Rates.integral_nil]
    · have hle := hfrom (.inr hcs)
      exact h.runs x y (hle.trans hx) (hle.trans hy)

/-- No point of the log is newer than the accounting point. -/
theorem Recorded.le_chargeFrom (h : Recorded cs stepAt l) (hp : p ∈ l.slewLog) :
    p.at_ ≤ l.chargeFrom := by
  obtain ⟨pre, post, hlog⟩ := List.append_of_mem hp
  have hchain : (p :: post).IsChain (Segment cs) := h.chain.suffix ⟨pre, hlog.symm⟩
  have hlast : l.slewLog.getLast? = some ((p :: post).getLast (List.cons_ne_nil p post)) := by
    rw [hlog, List.getLast?_append, List.getLast?_eq_some_getLast (List.cons_ne_nil p post),
      Option.some_or]
  rw [← (h.last _ hlast).1]
  exact (segments_cum hchain _ (List.getLast_mem _)).1

theorem Segment.older {c : Change K} {p q : SlewPoint K} (h : Segment cs p q) (hq : q.at_ ≤ c.at_) :
    Segment (c :: cs) p q := by
  obtain ⟨hle, r, hcum, hrate⟩ := h
  refine ⟨hle, r, hcum, ?_⟩
  intro t hpt htq
  rw [Rates.integral_before cs (hle.trans hq) (htq.trans hq)]
  exact hrate t hpt htq

/-- **A word issued at the accounting point keeps the record.** -/
theorem Recorded.issue (h : Recorded cs stepAt l) (hne : l.slewLog ≠ []) (total : K) :
    Recorded (⟨l.chargeFrom, (total - l.freq) / 1000000⟩ :: cs) stepAt (l.setApplied total) := by
  refine ⟨?_, h.last, ?_, fun hnil => absurd hnil hne, ?_⟩
  · -- the points of the log are no newer than the word
    have hmem : l.slewLog.IsChain fun p q => Segment cs p q ∧ q ∈ l.slewLog := by
      rw [List.isChain_iff_getElem]
      intro i hi
      exact ⟨h.chain.getElem i hi, List.getElem_mem hi⟩
    exact hmem.imp fun p q hpq => hpq.1.older (h.le_chargeFrom hpq.2)
  · intro p hp x hx hspan hxp
    have hle := h.le_chargeFrom (List.mem_of_head? hp)
    rw [Rates.integral_before cs (hxp.trans hle) hle]
    exact h.first p hp x hx hspan hxp
  · intro x y hx hy
    exact Rates.integral_after cs hx hy

/-- **A step starts a new record**, in which the word left in the kernel does not
count. -/
theorem recorded_step (l : Loop K) (now : K)
    (hrest : ∀ x y, now ≤ x → now ≤ y → integral cs x y = 0) :
    Recorded cs (some now) (l.step now) := by
  have hzero : (l.step now).transient = 0 := by
    unfold Loop.transient
    show (if l.haveApply = true then (l.applied - l.applied) / 1000000 else 0) = 0
    rw [sub_self, zero_div, ite_self]
  refine ⟨List.isChain_nil, nofun, nofun, ?_, ?_⟩
  · intro _ x y hx hy
    exact hrest x y (hx now rfl) (hy now rfl)
  · intro x y hx hy
    rw [hzero, zero_mul]
    exact hrest x y hx hy

/-! ## What updates and ticks do to the books -/

/-- The three ways an update can end, as the accounting sees them. -/
theorem update_books [HasSqrt K] (l : Loop K) (offset : K) (poll : ℤ) (now : K)
    (synced mayStep : Bool) :
    ((l.update offset poll now synced mayStep).1 = l ∧
      ((l.update offset poll now synced mayStep).2 = .deferred ∨
        (l.update offset poll now synced mayStep).2 = .panicRefused ∨
        (l.update offset poll now synced mayStep).2 = .ignored)) ∨
    ((l.update offset poll now synced mayStep).1 = l.step now ∧
      ∃ actions, (l.update offset poll now synced mayStep).2 = .stepped actions) ∨
    ((l.update offset poll now synced mayStep).2 = .updated ∧
      (l.update offset poll now synced mayStep).1.pending = offset ∧
      ∃ t : Loop K, t.books = l.books ∧
        (l.update offset poll now synced mayStep).1.books = (t.chargeApplied now).books) := by
  obtain ⟨v, hv, h⟩ | h | ⟨m, hm, h⟩ := update_outcome l offset poll now synced mayStep
  · rw [h]
    exact .inl ⟨rfl, hv⟩
  · rw [h]
    exact .inr (.inl ⟨rfl, _, rfl⟩)
  · have hbooks : m.books = l.books := by
      obtain ⟨jitter, skip, hjitter⟩ := noteJitter_eq l offset
      rw [hm, hjitter]
      unfold Loop.learn
      dsimp only
      split_ifs <;> rfl
    rw [h]
    exact .inr (.inr ⟨rfl, rfl, m, hbooks, rfl⟩)

/-- An update does not change the configuration, and a frequency that is known stays
known. -/
theorem update_settings [HasSqrt K] (l : Loop K) (offset : K) (poll : ℤ) (now : K)
    (synced mayStep : Bool) : (l.update offset poll now synced mayStep).1.cfg = l.cfg ∧
      (l.freqKnown = true → (l.update offset poll now synced mayStep).1.freqKnown = true) := by
  obtain ⟨v, -, h⟩ | h | ⟨m, hm, h⟩ := update_outcome l offset poll now synced mayStep
  · rw [h]
    exact ⟨rfl, id⟩
  · rw [h]
    exact ⟨rfl, id⟩
  · have hlearn : m.cfg = l.cfg ∧ (l.freqKnown = true → m.freqKnown = true) := by
      obtain ⟨jitter, skip, hjitter⟩ := noteJitter_eq l offset
      rw [hm, hjitter]
      unfold Loop.learn
      dsimp only
      split_ifs
      · exact ⟨rfl, id⟩
      · exact ⟨rfl, fun _ => rfl⟩
      · exact ⟨rfl, id⟩
      · exact ⟨rfl, id⟩
      · exact ⟨rfl, fun _ => rfl⟩
    obtain ⟨-, hcfg, -, hknown⟩ := chargeApplied_settings m now
    rw [h]
    exact ⟨hcfg.trans hlearn.1, fun hyes => hknown.trans (hlearn.2 hyes)⟩

/-! ## A loop and the words it issued -/

/-- A call of the loop: `Update` or `Tick`. -/
inductive LoopOp (K : Type) where
  | update (offset : K) (poll : ℤ) (now : K) (synced mayStep : Bool)
  | tick (now : K)

def LoopOp.now : LoopOp K → K
  | .update _ _ now _ _ => now
  | .tick now => now

/-- A word in the kernel and the base it counts against. -/
structure Word (K : Type) where
  at_ : K
  word : K
  base : K

/-- The transient of the word, as a rate. -/
def Word.change (w : Word K) : Change K :=
  ⟨w.at_, (w.word - w.base) / 1000000⟩

/-- A loop together with what has happened to it. -/
structure Account (K : Type) where
  loop : Loop K
  /-- The time of the last call. -/
  clock : Option K
  /-- The words as `Tick` issued them, newest first. -/
  issued : List (Word K)
  /-- The same words, where a step counts the word in the kernel as a base. -/
  running : List (Word K)
  stepAt : Option K
  /-- When `Pending` was last replaced, and by what. -/
  since : Option (K × K)
  /-- The ticks since then that snapped `Pending` to zero. -/
  snaps : ℕ

def Account.new (cfg : LoopConfig K) (freq : K) (known : Bool) : Account K :=
  { loop := Loop.new cfg freq known, clock := none, issued := [], running := [], stepAt := none,
    since := none, snaps := 0 }

/-- The words an action list puts into the kernel. -/
def wordsOf (now base : K) (actions : List (Action K)) : List (Word K) :=
  actions.filterMap fun
    | .setFrequency ppm => some ⟨now, ppm, base⟩
    | .step _ | .resetFilters => none

def Account.tick (a : Account K) (now : K) : Account K :=
  let (loop, actions) := a.loop.tick now
  let words := wordsOf now loop.freq actions
  { a with
    loop := loop
    clock := some now
    issued := words ++ a.issued
    running := words ++ a.running
    snaps := if loop.pending = a.loop.pending - a.loop.charge now then a.snaps else a.snaps + 1 }

/-- The word in the kernel, from now on with itself as the base. -/
def Account.rebase (a : Account K) (now : K) : List (Word K) :=
  match a.running with
  | [] => []
  | w :: older => ⟨now, w.word, w.word⟩ :: w :: older

def Account.update [HasSqrt K] (a : Account K) (offset : K) (poll : ℤ) (now : K)
    (synced mayStep : Bool) : Account K :=
  let (loop, verdict) := a.loop.update offset poll now synced mayStep
  match verdict with
  | .updated => { a with loop := loop, clock := some now, since := some (now, offset), snaps := 0 }
  | .stepped _ =>
    { a with
      loop := loop
      clock := some now
      running := a.rebase now
      stepAt := some now
      since := some (now, 0)
      snaps := 0 }
  | .deferred | .panicRefused | .ignored => { a with loop := loop, clock := some now }

def Account.apply [HasSqrt K] (a : Account K) : LoopOp K → Account K
  | .update offset poll now synced mayStep => a.update offset poll now synced mayStep
  | .tick now => a.tick now

/-- The rate at which the phase moves, as the loop counts it. -/
def Account.changes (a : Account K) : List (Change K) :=
  a.running.map Word.change

/-- The call charges the phase moved since the last accounting point. -/
def Account.charges [HasSqrt K] (a : Account K) : LoopOp K → Bool
  | .update offset poll now synced mayStep =>
    ((a.loop.update offset poll now synced mayStep).2 matches .updated)
  | .tick _ => true

/-- Time does not go back, and a charged interval is at most `maxTickInterval`. -/
def Account.Paced [HasSqrt K] (a : Account K) (op : LoopOp K) : Prop :=
  (∀ t ∈ a.clock, t ≤ op.now) ∧
    (a.charges op = true → a.loop.haveTick = true → op.now - a.loop.chargeFrom ≤ 2)

instance [HasSqrt K] (a : Account K) (op : LoopOp K) : Decidable (a.Paced op) := by
  unfold Account.Paced
  infer_instance

/-- The books of the loop agree with the words in the kernel. -/
structure Account.Balanced (a : Account K) : Prop where
  recorded : Recorded a.changes a.stepAt a.loop
  /-- Before the first accounting point nothing has run. -/
  fresh : a.loop.haveTick = false →
    a.running = [] ∧ a.loop.haveApply = false ∧ a.loop.slewLog = []
  clock : a.loop.haveTick = true → ∃ t ∈ a.clock, a.loop.chargeFrom ≤ t
  stepped : ∀ s ∈ a.stepAt, a.loop.haveTick = true ∧ s ≤ a.loop.chargeFrom
  balance : ∀ u o, a.since = some (u, o) → a.loop.haveTick = true ∧ u ≤ a.loop.chargeFrom ∧
    |a.loop.pending - (o - integral a.changes u a.loop.chargeFrom)| ≤ a.snaps / 1000000000000

theorem balanced_new [IsStrictOrderedRing K] (cfg : LoopConfig K) (freq : K) (known : Bool) :
    (Account.new cfg freq known).Balanced := by
  refine ⟨⟨List.isChain_nil, nofun, nofun, fun _ _ _ _ _ => rfl, ?_⟩, fun _ => ⟨rfl, rfl, rfl⟩,
    nofun, nofun, nofun⟩
  intro x y _ _
  exact (zero_mul _).symm

variable {a : Account K}

/-- A paced charge is due. -/
theorem Account.Balanced.due [HasSqrt K] (h : a.Balanced) {op : LoopOp K} (hpaced : a.Paced op)
    (hcharges : a.charges op = true) : a.loop.Due op.now := by
  unfold Loop.Due
  split
  case isTrue htick =>
    obtain ⟨t, ht, hle⟩ := h.clock htick
    exact ⟨hle.trans (hpaced.1 t ht), hpaced.2 hcharges htick⟩
  case isFalse htick => exact (h.fresh (by simpa using htick)).2

/-- The last step is no later than a paced call. -/
theorem Account.Balanced.step_le [HasSqrt K] (h : a.Balanced) {op : LoopOp K}
    (hpaced : a.Paced op) : ∀ s ∈ a.stepAt, s ≤ op.now := by
  intro s hs
  obtain ⟨htick, hle⟩ := h.stepped s hs
  obtain ⟨t, ht, hfrom⟩ := h.clock htick
  exact (hle.trans hfrom).trans (hpaced.1 t ht)

/-- The record after a charge, and the charge as an integral. -/
theorem Account.Balanced.charged [HasSqrt K] [IsStrictOrderedRing K] (h : a.Balanced)
    {op : LoopOp K} (hpaced : a.Paced op) (hcharges : a.charges op = true) :
    Recorded a.changes a.stepAt (a.loop.chargeApplied op.now) ∧
      (a.loop.chargeApplied op.now).slewLog ≠ [] := by
  refine h.recorded.charged (h.due hpaced hcharges) (h.step_le hpaced) ?_
  intro htick
  unfold Account.changes
  rw [(h.fresh htick).1, List.map_nil]

/-- What the residual is off by after a charge: one more snap at most. -/
theorem Account.Balanced.residual [HasSqrt K] [IsStrictOrderedRing K] (h : a.Balanced)
    {op : LoopOp K} (hpaced : a.Paced op) (hcharges : a.charges op = true) {u o : K}
    (hsince : a.since = some (u, o)) :
    u ≤ op.now ∧
      |(a.loop.chargeApplied op.now).pending - (o - integral a.changes u op.now)| ≤
        ((if (a.loop.chargeApplied op.now).pending =
          a.loop.pending - a.loop.charge op.now then a.snaps
          else a.snaps + 1 : ℕ) : K) / 1000000000000 := by
  have hdue := h.due hpaced hcharges
  obtain ⟨htick, hu, hoff⟩ := h.balance u o hsince
  have hle : a.loop.chargeFrom ≤ op.now :=
    hdue.chargeFrom_le fun hfresh => absurd (hfresh.1.symm.trans htick) (by decide)
  have hmoved : integral a.changes u op.now =
      integral a.changes u a.loop.chargeFrom + a.loop.charge op.now := by
    rw [← Rates.integral_add _ u a.loop.chargeFrom op.now,
      h.recorded.runs _ _ (le_refl _) hle]
    rfl
  obtain ⟨hpending, -⟩ := chargeApplied_due hdue (h.recorded.last_le hdue)
  rw [hmoved]
  refine ⟨hu.trans hle, ?_⟩
  generalize (a.loop.chargeApplied op.now).pending = p at hpending ⊢
  split
  case isTrue hexact =>
    rw [hexact]
    refine le_of_eq_of_le ?_ hoff
    congr 1
    ring
  case isFalse hsnap =>
    obtain ⟨rfl, hsmall⟩ := hpending.resolve_left hsnap
    push_cast
    rw [add_div]
    calc |0 - (o - (integral a.changes u a.loop.chargeFrom + a.loop.charge op.now))|
        = |a.loop.pending - (o - integral a.changes u a.loop.chargeFrom) -
            (a.loop.pending - a.loop.charge op.now)| := by
          congr 1
          ring
      _ ≤ _ := (abs_sub _ _).trans (add_le_add hoff hsmall.le)

theorem balanced_tick [HasSqrt K] [IsStrictOrderedRing K] (h : a.Balanced) {now : K}
    (hpaced : a.Paced (.tick now)) : (a.tick now).Balanced := by
  obtain ⟨hrec, hne⟩ := h.charged hpaced rfl
  have hstep := h.step_le hpaced
  have hres := fun u o hsince => h.residual hpaced rfl (u := u) (o := o) hsince
  obtain ⟨-, -, -, -, hnow, htick⟩ := chargeApplied_keeps a.loop now
  change Recorded a.changes a.stepAt (a.loop.chargeApplied now) at hrec
  change (a.loop.chargeApplied now).slewLog ≠ [] at hne
  unfold Account.tick
  rcases tick_outcome a.loop now with heq | ⟨-, heq⟩
  · generalize (a.loop.chargeApplied now).target = total at heq
    rw [heq]
    have hissue := hrec.issue hne total
    rw [hnow] at hissue
    refine ⟨hissue, fun hfalse => absurd (hfalse.symm.trans htick) (by decide),
      fun _ => ⟨now, rfl, hnow.le⟩, fun s hs => ⟨htick, (hstep s hs).trans hnow.ge⟩, ?_⟩
    intro u o hsince
    obtain ⟨hu, hoff⟩ := hres u o hsince
    refine ⟨htick, hu.trans hnow.ge, ?_⟩
    show |(a.loop.chargeApplied now).pending -
      (o - integral (⟨now, (total - (a.loop.chargeApplied now).freq) / 1000000⟩ :: a.changes) u
        (a.loop.chargeApplied now).chargeFrom)| ≤ _
    rw [hnow, Rates.integral_before _ hu (le_refl _)]
    exact hoff
  · rw [heq]
    refine ⟨hrec, fun hfalse => absurd (hfalse.symm.trans htick) (by decide),
      fun _ => ⟨now, rfl, hnow.le⟩, fun s hs => ⟨htick, (hstep s hs).trans hnow.ge⟩, ?_⟩
    intro u o hsince
    obtain ⟨hu, hoff⟩ := hres u o hsince
    refine ⟨htick, hu.trans hnow.ge, ?_⟩
    show |(a.loop.chargeApplied now).pending -
      (o - integral a.changes u (a.loop.chargeApplied now).chargeFrom)| ≤ _
    rw [hnow]
    exact hoff

/-- After a step the word in the kernel does not count. -/
theorem Account.rebase_rests (a : Account K) {now x y : K} (hx : now ≤ x) (hy : now ≤ y) :
    integral ((a.rebase now).map Word.change) x y = 0 := by
  unfold Account.rebase
  cases a.running with
  | nil => rfl
  | cons w older =>
    rw [List.map_cons, Rates.integral_after _ hx hy]
    simp [Word.change]

theorem balanced_update [HasSqrt K] [IsStrictOrderedRing K] (h : a.Balanced) {offset : K} {poll : ℤ}
    {now : K} {synced mayStep : Bool} (hpaced : a.Paced (.update offset poll now synced mayStep)) :
    (a.update offset poll now synced mayStep).Balanced := by
  have hclock : a.loop.haveTick = true → a.loop.chargeFrom ≤ now := by
    intro htick
    obtain ⟨t, ht, hle⟩ := h.clock htick
    exact hle.trans (hpaced.1 t ht)
  have hcharges : (a.loop.update offset poll now synced mayStep).2 = .updated →
      a.charges (.update offset poll now synced mayStep) = true := by
    intro hverdict
    unfold Account.charges
    dsimp only
    rw [hverdict]
  have hcases := update_books a.loop offset poll now synced mayStep
  unfold Account.update
  generalize hupdate : a.loop.update offset poll now synced mayStep = r at hcases hcharges
  obtain ⟨l, verdict⟩ := r
  rcases hcases with ⟨rfl, hquiet⟩ | ⟨rfl, actions, rfl⟩ | ⟨rfl, hpending, t, hbooks, hcharged⟩
  · -- the loop is left alone, and only time passes
    have hbalanced : Account.Balanced { a with clock := some now } :=
      ⟨h.recorded, h.fresh, fun htick => ⟨now, rfl, hclock htick⟩, h.stepped, h.balance⟩
    rcases hquiet with rfl | rfl | rfl <;> exact hbalanced
  · -- a step: the record starts over
    have hrec := recorded_step a.loop now fun x y hx hy => a.rebase_rests hx hy
    refine ⟨hrec, nofun, fun _ => ⟨now, rfl, le_refl now⟩, ?_, ?_⟩
    · intro s hs
      obtain rfl : now = s := Option.some.inj hs
      exact ⟨rfl, le_refl _⟩
    · intro u o hsince
      obtain ⟨rfl, rfl⟩ : now = u ∧ 0 = o := Prod.mk.inj (Option.some.inj hsince)
      refine ⟨rfl, le_refl _, ?_⟩
      show |0 - (0 - integral _ now now)| ≤ ((0 : ℕ) : K) / _
      rw [Rates.integral_self]
      simp
  · -- an update proper: charge, then replace the residual
    have hdue : t.Due now := (h.due hpaced (hcharges rfl)).congr hbooks
    have hfresh : t.haveTick = false → a.changes = [] := by
      intro htick
      have htick' : a.loop.haveTick = false := by
        have := congrArg (fun b => b.2.2.2.1) hbooks
        exact this.symm.trans htick
      unfold Account.changes
      rw [(h.fresh htick').1, List.map_nil]
    obtain ⟨hrec, -⟩ := (h.recorded.congr hbooks).charged hdue (h.step_le hpaced) hfresh
    obtain ⟨-, -, -, -, hnow', htick'⟩ := chargeApplied_keeps t now
    have hnow : l.chargeFrom = now := (congrArg (fun b => b.2.2.1) hcharged).trans hnow'
    have htick : l.haveTick = true := (congrArg (fun b => b.2.2.2.1) hcharged).trans htick'
    refine ⟨hrec.congr hcharged, fun hfalse => absurd (hfalse.symm.trans htick) (by decide),
      fun _ => ⟨now, rfl, hnow.le⟩, fun s hs => ⟨htick, (h.step_le hpaced s hs).trans hnow.ge⟩, ?_⟩
    intro u o hsince
    obtain ⟨rfl, rfl⟩ : now = u ∧ offset = o := Prod.mk.inj (Option.some.inj hsince)
    refine ⟨htick, hnow.ge, ?_⟩
    show |l.pending - (offset - integral a.changes now l.chargeFrom)| ≤ ((0 : ℕ) : K) / _
    rw [hnow, Rates.integral_self, show l.pending = offset from hpending]
    simp

/-- The account as a step function of runs. -/
def Account.step [HasSqrt K] (a : Account K) (op : LoopOp K) : Option (Account K) :=
  some (a.apply op)

theorem balanced_step [HasSqrt K] [IsStrictOrderedRing K] (a : Account K) (op : LoopOp K)
    (b : Account K) (h : a.Balanced) (hpaced : a.Paced op) (hstep : a.step op = some b) :
    b.Balanced := by
  obtain rfl : a.apply op = b := Option.some.inj hstep
  cases op with
  | update offset poll now synced mayStep => exact balanced_update h hpaced
  | tick now => exact balanced_tick h hpaced

/-- **Phase accounting.**  In every run from a new loop whose times do not go back
and whose charged intervals are at most `maxTickInterval`: over an interval that
ends no earlier than the last call, reaches back no further than `slewLogSpan` and
not behind the last step, `AppliedSince` is the integral of the words in the kernel
over their bases; and `Pending` is what the last update left minus that integral up
to the last accounting point, up to one snap of `1e-12` for each tick that made
one. -/
theorem accounting_exact [HasSqrt K] [IsStrictOrderedRing K] (cfg : LoopConfig K) (freq : K)
    (known : Bool) (ops : List (LoopOp K)) (a : Account K)
    (hpaced : Runs.Along Account.step Account.Paced (Account.new cfg freq known) ops)
    (hrun : Runs.run Account.step (Account.new cfg freq known) ops = some a) :
    (∀ at_ now, at_ ≤ now → (∀ t ∈ a.clock, t ≤ now) → now - slewLogSpan ≤ at_ →
      (∀ s ∈ a.stepAt, s ≤ at_) → a.loop.appliedSince at_ now = integral a.changes at_ now) ∧
    ∀ u o, a.since = some (u, o) →
      |a.loop.pending - (o - integral a.changes u a.loop.chargeFrom)| ≤
        a.snaps / 1000000000000 := by
  have h : a.Balanced :=
    Runs.run_invariant balanced_step (balanced_new cfg freq known) hpaced hrun
  refine ⟨?_, fun u o hsince => (h.balance u o hsince).2.2⟩
  intro at_ now hle hclock hspan hstep
  cases htick : a.loop.haveTick with
  | true =>
    obtain ⟨t, ht, hfrom⟩ := h.clock htick
    have hnow := hclock t ht
    exact h.recorded.appliedSince_eq hle hstep (by linarith)
  | false =>
    -- nothing has run yet
    obtain ⟨hrunning, -, hlog⟩ := h.fresh htick
    have hchanges : a.changes = [] := by
      unfold Account.changes
      rw [hrunning, List.map_nil]
    unfold Loop.appliedSince Loop.cumulativeSlew
    rw [hlog, hchanges, Rates.integral_nil]
    simp

/-- A loop that may step, at 1 ms precision. -/
def steppingLoop : LoopConfig ℚ :=
  { stepThreshold := 128 / 1000, stepLimit := -1, panic := 1000, panicAtStartup := true,
    maxSlewPPM := 500, precision := 1 / 1000, timeConstant := 4, freqMeasure := 0 }

/-- 10 ms to slew, a tick, an offset of a second that is stepped, and the next tick. -/
def steppedRun : List (LoopOp ℚ) :=
  [.update (1 / 100) 6 0 false true, .tick 1, .update 1 6 2 false true, .tick 3]

def steppedAccount : Account ℚ :=
  steppedRun.foldl Account.apply (Account.new steppingLoop 0 true)

theorem accounting_exact_steppedRun :
    Runs.Along Account.step Account.Paced (Account.new steppingLoop 0 true) steppedRun ∧
      steppedAccount.loop.appliedSince 2 3 = integral steppedAccount.changes 2 3 ∧
      |steppedAccount.loop.pending - (0 - integral steppedAccount.changes 2
        steppedAccount.loop.chargeFrom)| ≤ 0 := by
  have hpaced :
      Runs.Along Account.step Account.Paced (Account.new steppingLoop 0 true) steppedRun := by
    decide +kernel
  have h := accounting_exact steppingLoop 0 true steppedRun steppedAccount hpaced rfl
  refine ⟨hpaced, h.1 2 3 (by decide +kernel) (by decide +kernel) (by decide +kernel)
    (by decide +kernel), ?_⟩
  refine le_of_le_of_eq (h.2 2 0 (by decide +kernel)) ?_
  decide +kernel

/-- The word left in the kernel by a step goes on moving the phase until the next
tick, and neither `AppliedSince` nor `Pending` counts it. -/
theorem stepped_word_uncounted :
    Runs.Along Account.step Account.Paced (Account.new steppingLoop 0 true) steppedRun ∧
      Runs.run Account.step (Account.new steppingLoop 0 true) steppedRun = some steppedAccount ∧
      steppedAccount.clock = some 3 ∧ steppedAccount.stepAt = some 2 ∧
      steppedAccount.loop.appliedSince 2 3 = 0 ∧
      integral (steppedAccount.issued.map Word.change) 2 3 = 625 / 16 / 1000000 := by
  refine ⟨by decide +kernel, rfl, ?_⟩
  decide +kernel

end Carillon.Discipline
