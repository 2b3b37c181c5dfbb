/-
# Settling: what has been seen before the clock is served as synchronised

A run is watched from outside: `Evidence` counts the loop updates that were not
steps and the acquisitions from the system source, and starts over at every clock
step.  `Effect` says once what an operation can do to the state machine; from it
follows, for every run, that a clock that is SYNCED or in HOLDOVER has settled on
evidence taken since the last step.
-/
import Carillon.Discipline.System

namespace Carillon.Discipline

variable {K : Type}

/-! ## Evidence -/

/-- What has been seen since the last clock step. -/
structure Evidence where
  /-- Loop updates that were not steps. -/
  updates : ℕ
  /-- Acquisitions applied from the source that was the system source then. -/
  acquisitions : ℕ
  deriving DecidableEq, Repr

/-- One loop update and `n` acquisitions. -/
def Evidence.Enough (e : Evidence) (n : ℕ) : Prop :=
  1 ≤ e.updates ∧ n ≤ e.acquisitions

instance (e : Evidence) (n : ℕ) : Decidable (e.Enough n) :=
  inferInstanceAs (Decidable (1 ≤ e.updates ∧ n ≤ e.acquisitions))

/-- The operation applies an acquisition from the current system source. -/
def System.Acquires (s : System K) : Op K → Prop
  | .update m => s.registered m.source ∧ s.sysName = some m.source ∧ m.isAcquisition
  | _ => False

instance (s : System K) : (op : Op K) → Decidable (s.Acquires op)
  | .update m =>
    inferInstanceAs
      (Decidable (s.registered m.source ∧ s.sysName = some m.source ∧ m.isAcquisition))
  | .addSource _ _ | .removeSource _ _ | .tick _ | .invalidateSources _ | .resync _ => .isFalse id

/-- The evidence after an operation took the system from `s` to `s'`: steps and
updates are read off the loop's own counters. -/
def Evidence.after (e : Evidence) (s : System K) (op : Op K) (s' : System K) : Evidence :=
  if s'.loop.steps ≠ s.loop.steps then ⟨0, 0⟩
  else
    { updates := if s'.loop.updates ≠ s.loop.updates then e.updates + 1 else e.updates
      acquisitions := if s.Acquires op then e.acquisitions + 1 else e.acquisitions }

/-- One operation of a watched system. -/
def observe [Field K] [LinearOrder K] [HasSqrt K] (w : System K × Evidence) (op : Op K) :
    System K × Evidence :=
  let s := (w.1.apply op).1
  (s, w.2.after w.1 op s)

/-! ## What an operation does to the state machine -/

/-- The system's own count of the evidence. -/
def System.evidence (s : System K) : Evidence :=
  ⟨s.postStepUpdates, s.sinceStep⟩

/-- The system serves, or would serve after the next update or loss of its
sources, without settling again. -/
def System.Trusted (s : System K) : Prop :=
  s.state = .synced ∨ s.state = .holdover ∨ s.everSynced = true ∨ s.resyncing = true

/-- The counters are as they were. -/
structure System.Kept (s s' : System K) : Prop where
  cfg : s'.cfg = s.cfg
  updates : s'.loop.updates = s.loop.updates
  steps : s'.loop.steps = s.loop.steps
  evidence : s'.evidence = s.evidence

/-- Everything a reselection can do to the state machine. -/
inductive System.Effect (s s' : System K) : Prop
  /-- Nothing was fed to the loop, or the loop refused it. -/
  | quiet (kept : s.Kept s')
      (trusted : s'.Trusted →
        s.Trusted ∨ s.evidence.Enough s.cfg.settleUpdates ∧ s'.sysName ≠ none)
  | stepped (cfg : s'.cfg = s.cfg) (steps : s'.loop.steps = s.loop.steps + 1)
      (evidence : s'.evidence = ⟨0, 0⟩) (untrusted : ¬ s'.Trusted)
  | updated (cfg : s'.cfg = s.cfg) (steps : s'.loop.steps = s.loop.steps)
      (updates : s'.loop.updates = s.loop.updates + 1)
      (evidence : s'.evidence = ⟨s.evidence.updates + 1, s.evidence.acquisitions⟩)
      (named : s'.sysName ≠ none)
      (trusted : s'.Trusted → s.Trusted ∨ s'.evidence.Enough s.cfg.settleUpdates)

theorem System.Kept.rfl {s : System K} : s.Kept s :=
  ⟨Eq.refl _, Eq.refl _, Eq.refl _, Eq.refl _⟩

theorem System.Kept.trans {s t u : System K} (h : s.Kept t) (h' : t.Kept u) : s.Kept u :=
  ⟨h'.cfg.trans h.cfg, h'.updates.trans h.updates, h'.steps.trans h.steps,
    h'.evidence.trans h.evidence⟩

/-- What was written before a reselection, outside the state machine, does not
matter to its effect. -/
theorem System.Effect.of_kept {s t u : System K} (h : s.Kept t) (ht : t.Trusted → s.Trusted)
    (he : t.Effect u) : s.Effect u := by
  cases he with
  | quiet kept trusted =>
    refine .quiet (h.trans kept) fun hu => ?_
    rw [← h.evidence, ← h.cfg]
    exact (trusted hu).imp_left ht
  | stepped cfg steps evidence untrusted =>
    refine .stepped (cfg.trans h.cfg) ?_ evidence untrusted
    rw [steps, h.steps]
  | updated cfg steps updates evidence named trusted =>
    refine .updated (cfg.trans h.cfg) (steps.trans h.steps) ?_ ?_ named fun hu => ?_
    · rw [updates, h.updates]
    · rw [evidence, h.evidence]
    · rw [← h.cfg]
      exact (trusted hu).imp_left ht

/-- Nor does what is written after it. -/
theorem System.Effect.then_kept {s t u : System K} (he : s.Effect t) (h : t.Kept u)
    (hname : u.sysName = t.sysName) (hu : u.Trusted → t.Trusted) : s.Effect u := by
  cases he with
  | quiet kept trusted => exact .quiet (kept.trans h) fun ht => hname ▸ trusted (hu ht)
  | stepped cfg steps evidence untrusted =>
    exact .stepped (h.cfg.trans cfg) (h.steps.trans steps) (h.evidence.trans evidence)
      fun ht => untrusted (hu ht)
  | updated cfg steps updates evidence named trusted =>
    refine .updated (h.cfg.trans cfg) (h.steps.trans steps) (h.updates.trans updates)
      (h.evidence.trans evidence) (hname ▸ named) fun ht => ?_
    rw [h.evidence]
    exact trusted (hu ht)

variable (s : System K)

theorem setState_kept (new : State) : s.Kept (s.setState new).1 := by
  unfold System.setState
  split <;> exact ⟨rfl, rfl, rfl, rfl⟩

/-- Fields written before a change of state may be no counters. -/
theorem kept_setState {s : System K} (t : System K) (new : State) (h : s.Kept t) :
    s.Kept (t.setState new).1 :=
  h.trans (setState_kept t new)

theorem setState_sysName (new : State) :
    (s.setState new).1.sysName = s.sysName := by
  unfold System.setState
  split <;> rfl

/-- Only entering SYNCED or HOLDOVER can make a system trusted. -/
theorem trusted_of_setState {s : System K} {new : State} (h : (s.setState new).1.Trusted) :
    s.Trusted ∨ new = .synced ∨ new = .holdover := by
  unfold System.setState at h
  split at h
  · exact .inl h
  · rcases h with h | h | h | h
    · exact .inr (.inl h)
    · exact .inr (.inr h)
    · rw [Bool.or_eq_true, decide_eq_true_eq] at h
      exact h.imp (fun h => .inr (.inr (.inl h))) .inl
    · exact .inl (.inr (.inr (.inr h)))

variable (now : K)

theorem loseSystem_kept : s.Kept (s.loseSystem now).1 := by
  unfold System.loseSystem
  dsimp only
  split
  · exact kept_setState _ _ ⟨rfl, rfl, rfl, rfl⟩
  · split
    · exact kept_setState _ _ ⟨rfl, rfl, rfl, rfl⟩
    · exact kept_setState _ _ ⟨rfl, rfl, rfl, rfl⟩
  · exact ⟨rfl, rfl, rfl, rfl⟩
  · exact ⟨rfl, rfl, rfl, rfl⟩

/-- Losing the system source never adds trust. -/
theorem trusted_of_loseSystem {s : System K} {now : K} (h : (s.loseSystem now).1.Trusted) :
    s.Trusted := by
  unfold System.loseSystem at h
  dsimp only at h
  split at h
  case h_1 hstate => exact .inl hstate
  case h_2 =>
    split at h
    case isTrue hever => exact .inr (.inr (.inl hever))
    case isFalse =>
      rcases trusted_of_setState h with h | h | h
      · exact h
      · exact absurd h (by decide)
      · exact absurd h (by decide)
  case h_3 => exact h
  case h_4 => exact h

theorem leaveHoldover_spec :
    s.Kept s.leaveHoldover.1 ∧ s.leaveHoldover.1.sysName = s.sysName ∧
      (s.leaveHoldover.1.Trusted → s.Trusted) := by
  unfold System.leaveHoldover
  split
  · refine ⟨setState_kept s _, setState_sysName s _, fun h => ?_⟩
    rcases trusted_of_setState h with h | h | h
    · exact h
    · exact absurd h (by decide)
    · exact absurd h (by decide)
  · exact ⟨.rfl, rfl, id⟩

variable [Field K]

/-- A step leaves nothing of what was established before it. -/
theorem restart_spec :
    s.restart.1.cfg = s.cfg ∧ s.restart.1.loop = s.loop ∧ s.restart.1.evidence = ⟨0, 0⟩ ∧
      s.restart.1.sysName = s.sysName ∧ s.restart.1.offset = 0 ∧ s.restart.1.state = .settling ∧
      s.restart.1.everSynced = false ∧ s.restart.1.resyncing = false := by
  unfold System.restart System.setState
  split
  case isTrue hstate => exact ⟨rfl, rfl, rfl, rfl, rfl, hstate, rfl, rfl⟩
  case isFalse => exact ⟨rfl, rfl, rfl, rfl, rfl, rfl, rfl, rfl⟩

theorem restart_untrusted : ¬ s.restart.1.Trusted := by
  obtain ⟨-, -, -, -, -, hstate, hever, hresync⟩ := restart_spec s
  unfold System.Trusted
  rw [hstate, hever, hresync]
  decide

variable [LinearOrder K]

theorem enough_of_settleDone {s : System K} {offset : K} (h : s.settleDone offset = true) :
    s.evidence.Enough s.cfg.settleUpdates := by
  unfold System.settleDone at h
  simp only [Bool.and_eq_true, decide_eq_true_eq] at h
  exact h.1

/-- Without a loop update, settling is completed by counted evidence only. -/
theorem idle_spec :
    s.Kept s.idle.1 ∧ s.idle.1.sysName = s.sysName ∧
      (s.idle.1.Trusted → s.Trusted ∨ s.evidence.Enough s.cfg.settleUpdates) := by
  obtain ⟨hkept, hname, htrusted⟩ := leaveHoldover_spec s
  unfold System.idle
  dsimp only
  split
  case isTrue hdone =>
    rw [Bool.and_eq_true] at hdone
    have henough := enough_of_settleDone hdone.2
    rw [hkept.evidence, hkept.cfg] at henough
    refine ⟨hkept.trans (setState_kept _ _), ?_, fun _ => .inr henough⟩
    rw [setState_sysName, hname]
  case isFalse => exact ⟨hkept, hname, fun h => .inl (htrusted h)⟩

theorem advance_kept (offset : K) :
    System.Kept { s with postStepUpdates := s.postStepUpdates + 1 } (s.advance offset).1 := by
  unfold System.advance
  dsimp only
  split
  · exact ⟨rfl, rfl, rfl, rfl⟩
  · split
    · exact kept_setState _ _ ⟨rfl, rfl, rfl, rfl⟩
    · exact kept_setState _ _ ⟨rfl, rfl, rfl, rfl⟩

theorem advance_sysName (offset : K) :
    (s.advance offset).1.sysName = s.sysName := by
  unfold System.advance
  dsimp only
  split
  · rfl
  · split <;> exact setState_sysName _ _

/-- A loop update leaves SETTLING by the resynchronisation shortcut, which only a
trusted system has, or by counted evidence. -/
theorem trusted_of_advance {s : System K} {offset : K} (h : (s.advance offset).1.Trusted) :
    s.Trusted ∨ (s.advance offset).1.evidence.Enough s.cfg.settleUpdates := by
  have hkept := advance_kept s offset
  by_cases htrusted : s.Trusted
  · exact .inl htrusted
  refine .inr ?_
  rw [hkept.evidence]
  unfold System.advance at h
  dsimp only at h
  split at h
  case isTrue hsynced => exact absurd (.inl hsynced) htrusted
  case isFalse =>
    split at h
    case isTrue hdone =>
      rw [Bool.or_eq_true] at hdone
      rcases hdone with hresync | hdone
      · exact absurd (.inr (.inr (.inr hresync))) htrusted
      · exact enough_of_settleDone hdone
    case isFalse =>
      rcases trusted_of_setState h with h | h | h
      · exact absurd h htrusted
      · exact absurd h (by decide)
      · exact absurd h (by decide)

variable (sel : Selection K)

/-- A verdict that leaves the loop alone leaves the counters alone too. -/
theorem conclude_quiet (sys : SourceState K) (now : K) {v : Verdict K}
    (hv : v = .deferred ∨ v = .panicRefused ∨ v = .ignored) :
    s.Kept (s.conclude sel sys now v).1 ∧ ((s.conclude sel sys now v).1.Trusted → s.Trusted) := by
  rcases hv with rfl | rfl | rfl
  · exact ⟨.rfl, id⟩
  · unfold System.conclude
    dsimp only
    refine ⟨kept_setState _ _ ⟨rfl, rfl, rfl, rfl⟩, fun ht => ?_⟩
    rcases trusted_of_setState ht with ht | ht | ht
    · exact ht
    · exact absurd ht (by decide)
    · exact absurd ht (by decide)
  · exact ⟨.rfl, id⟩

/-- After an update the system variables are taken from the system source; they
are no part of the state machine. -/
theorem conclude_updated (sys : SourceState K) (now : K) :
    System.Kept { s with postStepUpdates := s.postStepUpdates + 1 }
        (s.conclude sel sys now .updated).1 ∧
      (s.conclude sel sys now .updated).1.sysName = s.sysName ∧
      ((s.conclude sel sys now .updated).1.Trusted →
        s.Trusted ∨ (s.conclude sel sys now .updated).1.evidence.Enough s.cfg.settleUpdates) := by
  have hkept := advance_kept s sel.offset
  have hname := advance_sysName s sel.offset
  have htrusted := @trusted_of_advance K _ _ s sel.offset
  have hadopt : (s.conclude sel sys now .updated).1
      = (s.advance sel.offset).1.adopt sys sel.jitter now := rfl
  rw [hadopt]
  generalize (s.advance sel.offset).1 = t at hkept hname htrusted
  exact ⟨⟨hkept.cfg, hkept.updates, hkept.steps, hkept.evidence⟩, hname, htrusted⟩

theorem expire_spec :
    s.Kept (s.expire now).1 ∧ (s.expire now).1.sysName = s.sysName ∧
      ((s.expire now).1.Trusted → s.Trusted) := by
  unfold System.expire
  split
  case isTrue h =>
    exact ⟨kept_setState _ _ ⟨rfl, rfl, rfl, rfl⟩, setState_sysName _ _,
      fun _ => .inr (.inl h.1)⟩
  case isFalse => exact ⟨.rfl, rfl, id⟩

variable [HasSqrt K]

/-- What `reselect` does when the loop runs. -/
theorem feed_effect (sys : SourceState K) (now : K) (hname : s.sysName ≠ none) :
    s.Effect (s.feed sel sys now).1 := by
  unfold System.feed
  rcases update_cases s.loop sel.offset sys.poll now (s.state = .synced)
    (s.mayStep sel.survivors sys) with ⟨v, hv, h⟩ | h | ⟨l, h, hupdates, hsteps⟩
  · rw [h]
    have hquiet := conclude_quiet { s.consume sys with loop := s.loop } sel sys now hv
    refine .quiet (System.Kept.trans ?_ hquiet.1) fun ht => .inl (hquiet.2 ht)
    exact ⟨rfl, rfl, rfl, rfl⟩
  · rw [h]
    obtain ⟨hcfg, hloop, hevidence, -⟩ :=
      restart_spec { s.consume sys with loop := s.loop.step now }
    refine .stepped hcfg ?_ hevidence (restart_untrusted _)
    exact congrArg Loop.steps hloop
  · rw [h]
    obtain ⟨hkept, hsys, htrusted⟩ := conclude_updated { s.consume sys with loop := l } sel sys now
    exact .updated hkept.cfg (hkept.steps.trans hsteps) (hkept.updates.trans hupdates)
      hkept.evidence (fun hnone => hname (hsys.symm.trans hnone)) htrusted

theorem drive_effect (now : K) (sys : Option (SourceState K)) :
    s.Effect (s.drive sel now sys).1 := by
  cases sys with
  | none => exact .quiet (loseSystem_kept s now) fun h => .inl (trusted_of_loseSystem h)
  | some sys =>
    have hname : System.Kept s { s with sysName := some sys.name } := ⟨rfl, rfl, rfl, rfl⟩
    refine System.Effect.of_kept hname id ?_
    unfold System.drive
    dsimp only
    split
    · obtain ⟨hkept, hsys, htrusted⟩ := idle_spec { s with sysName := some sys.name }
      refine .quiet hkept fun h => (htrusted h).imp_right fun he => ⟨he, ?_⟩
      rw [hsys]
      exact Option.some_ne_none _
    · exact feed_effect _ _ _ _ (Option.some_ne_none _)

theorem reselect_effect : s.Effect (s.reselect now).1 := by
  have hkept : ∀ all sel, s.Kept (s.record all sel now) := fun _ _ => ⟨rfl, rfl, rfl, rfl⟩
  exact System.Effect.of_kept (hkept _ _) id (drive_effect _ _ _ _)

/-! ## Operations -/

theorem tick_effect : s.Effect (s.tick now).1 := by
  have hcounts := tick_counts (s.reselect now).1.loop now
  have hloop : System.Kept (s.reselect now).1
      { (s.reselect now).1 with loop := ((s.reselect now).1.loop.tick now).1 } :=
    ⟨rfl, hcounts.1, hcounts.2, rfl⟩
  obtain ⟨hkept, hname, htrusted⟩ := expire_spec
    { (s.reselect now).1 with loop := ((s.reselect now).1.loop.tick now).1 } now
  exact (reselect_effect s now).then_kept (hloop.trans hkept) hname htrusted

/-- Every operation is a reselection, or nothing, from a system that differs from
the one before by an acquisition at most. -/
theorem apply_effect (op : Op K) :
    ∃ t : System K, t.loop = s.loop ∧ t.cfg = s.cfg ∧ (t.Trusted → s.Trusted) ∧
      t.evidence = ⟨s.evidence.updates,
        if s.Acquires op then s.evidence.acquisitions + 1 else s.evidence.acquisitions⟩ ∧
      t.Effect (s.apply op).1 := by
  have hquiet : s.Effect s := .quiet .rfl .inl
  have hreselect : ∀ (t : System K) (now : K), s.Kept t → (t.Trusted → s.Trusted) →
      s.Effect (t.reselect now).1 :=
    fun t now hkept ht => .of_kept hkept ht (reselect_effect t now)
  cases op with
  | addSource name o =>
    refine ⟨s, rfl, rfl, id, rfl, ?_⟩
    unfold System.apply System.addSource
    dsimp only
    split
    · exact .quiet ⟨rfl, rfl, rfl, rfl⟩ .inl
    · exact .quiet ⟨rfl, rfl, rfl, rfl⟩ .inl
  | removeSource name now =>
    refine ⟨s, rfl, rfl, id, rfl, ?_⟩
    unfold System.apply System.removeSource
    dsimp only
    split
    · exact hreselect _ _ ⟨rfl, rfl, rfl, rfl⟩ id
    · exact hquiet
  | update m =>
    unfold System.apply System.update
    by_cases hreg : s.registered m.source
    · refine ⟨s.take m, rfl, rfl, id, ?_, ?_⟩
      · unfold System.evidence System.take System.Acquires
        simp only [hreg, true_and]
      · dsimp only
        rw [if_pos hreg]
        exact reselect_effect _ _
    · refine ⟨s, rfl, rfl, id, ?_, ?_⟩
      · rw [if_neg fun h : s.Acquires (.update m) => hreg h.1]
      · dsimp only
        rw [if_neg hreg]
        exact hquiet
  | tick now => exact ⟨s, rfl, rfl, id, rfl, tick_effect s now⟩
  | invalidateSources now =>
    exact ⟨s, rfl, rfl, id, rfl, hreselect _ _ ⟨rfl, rfl, rfl, rfl⟩ id⟩
  | resync now =>
    refine ⟨s, rfl, rfl, id, rfl, hreselect _ _ ⟨rfl, rfl, rfl, rfl⟩ fun h => ?_⟩
    rcases h with h | h | h | h
    · exact .inl h
    · exact .inr (.inl h)
    · exact .inr (.inr (.inl h))
    · exact (of_decide_eq_true h).imp_right .inl

/-! ## Runs -/

/-- The system's own counters are the evidence seen from outside, and it is
trusted on enough of it only. -/
structure Watched (w : System K × Evidence) : Prop where
  evidence : w.1.evidence = w.2
  trusted : w.1.Trusted → w.2.Enough w.1.cfg.settleUpdates

omit [Field K] [LinearOrder K] [HasSqrt K] in
theorem watched_effect {t u : System K} {e : Evidence} (h : Watched (t, e)) (he : t.Effect u) :
    Watched (u, if u.loop.steps ≠ t.loop.steps then ⟨0, 0⟩
      else ⟨if u.loop.updates ≠ t.loop.updates then e.updates + 1 else e.updates,
        e.acquisitions⟩) ∧ u.cfg = t.cfg := by
  have hevidence : t.evidence = e := h.evidence
  cases he with
  | quiet kept trusted =>
    rw [if_neg (not_not.mpr kept.steps), if_neg (not_not.mpr kept.updates)]
    refine ⟨⟨kept.evidence.trans hevidence, fun hu => ?_⟩, kept.cfg⟩
    dsimp only
    rw [kept.cfg, ← hevidence]
    rcases trusted hu with ht | ht
    · exact hevidence ▸ h.trusted ht
    · exact ht.1
  | stepped cfg steps evidence untrusted =>
    rw [if_pos (by omega)]
    exact ⟨⟨evidence, fun hu => absurd hu untrusted⟩, cfg⟩
  | updated cfg steps updates evidence named trusted =>
    rw [if_neg (not_not.mpr steps), if_pos (by omega)]
    rw [hevidence] at evidence
    refine ⟨⟨evidence, fun hu => ?_⟩, cfg⟩
    dsimp only
    rw [cfg]
    rcases trusted hu with ht | ht
    · have henough := h.trusted ht
      exact ⟨Nat.le_add_left 1 _, henough.2⟩
    · exact evidence ▸ ht

/-- One operation keeps the counters right and the trust earned. -/
theorem watched_observe {w : System K × Evidence} (h : Watched w) (op : Op K) :
    Watched (observe w op) ∧ (observe w op).1.cfg = w.1.cfg := by
  obtain ⟨t, hloop, hcfg, htrusted, hevidence, heffect⟩ := apply_effect w.1 op
  rw [h.evidence] at hevidence
  have ht : Watched (t, ⟨w.2.updates,
      if w.1.Acquires op then w.2.acquisitions + 1 else w.2.acquisitions⟩) := by
    refine ⟨hevidence, fun hu => ?_⟩
    have henough := h.trusted (htrusted hu)
    dsimp only
    rw [hcfg]
    refine ⟨henough.1, henough.2.trans ?_⟩
    dsimp only
    split <;> omega
  have hobserve := watched_effect ht heffect
  rw [hloop, hcfg] at hobserve
  exact hobserve

/-- Every run is watched. -/
theorem watched_run {w : System K × Evidence} (h : Watched w) (ops : List (Op K)) :
    Watched (ops.foldl observe w) ∧ (ops.foldl observe w).1.cfg = w.1.cfg := by
  induction ops generalizing w with
  | nil => exact ⟨h, rfl⟩
  | cons op ops ih =>
    obtain ⟨hop, hcfg⟩ := watched_observe h op
    obtain ⟨hrun, hcfg'⟩ := ih hop
    exact ⟨hrun, hcfg'.trans hcfg⟩

/-- A new system, watched from its start. -/
def watch (cfg : Config K) (freq : K) (known : Bool) : System K × Evidence :=
  (System.new cfg freq known, ⟨0, 0⟩)

omit [HasSqrt K] in
theorem watched_new (cfg : Config K) (freq : K) (known : Bool) :
    Watched (watch cfg freq known) := by
  refine ⟨rfl, fun h => ?_⟩
  rcases h with h | h | h | h <;> cases h

/-- **Settling evidence.**  After every run of operations, a system that is
SYNCED or in HOLDOVER has seen, since the last clock step or since its start, a
loop update that was not a step and as many acquisitions from the source that was
its system source then as settling asks for.  So a clock that has not settled and
loses its last source is not in HOLDOVER, and the shortcut that `Resync` grants
is open to no clock that had not settled. -/
theorem synced_on_evidence (cfg : Config K) (freq : K) (known : Bool) (ops : List (Op K)) :
    let w := ops.foldl observe (watch cfg freq known)
    let n := max 1 cfg.settleUpdates
    (w.1.state = .synced ∨ w.1.state = .holdover → w.2.Enough n) ∧
    (¬ w.2.Enough n → ∀ op, (observe w op).1.sysName = none →
      (observe w op).1.state ≠ .holdover) ∧
    (w.1.resyncing = true → w.2.Enough n) := by
  intro w n
  obtain ⟨hw, hcfg⟩ := watched_run (watched_new cfg freq known) ops
  have htrusted : w.1.Trusted → w.2.Enough n := fun h => by
    have henough := hw.trusted h
    rw [hcfg] at henough
    exact henough
  refine ⟨fun h => htrusted (h.imp_right .inl), fun hnot op hname hstate => ?_,
    fun h => htrusted (.inr (.inr (.inr h)))⟩
  -- trust that a loss of the system source leaves standing was there before it
  have hnow : (observe w op).1.Trusted := .inr (.inl hstate)
  obtain ⟨t, -, -, ht, -, heffect⟩ := apply_effect w.1 op
  cases heffect with
  | quiet kept trusted =>
    rcases trusted hnow with h | h
    · exact hnot (htrusted (ht h))
    · exact h.2 hname
  | stepped cfg steps evidence untrusted => exact untrusted hnow
  | updated cfg steps updates evidence named trusted => exact named hname

/-- A source's name. -/
def gps : Name := .gps

/-- A report at the given time: a millisecond off, with the given leap indicator. -/
def report (t : ℚ) (leap : Ntp.Leap) : Measurement ℚ where
  source := gps
  now := t
  reach := 1
  poll := 6
  generation := 2
  valid := true
  acquired := true
  leapSample := true
  leapValue := leap
  leapObserved := t
  invalidate := false
  at_ := t
  offset := 1 / 1000
  delay := 0
  dispersion := 0
  jitter := 1 / 1000000
  leap := leap
  stratum := 1
  refID := default
  rootDelay := 0
  rootDisp := 0
  precision := -20
  refTime := 0
  sourceRefID := default

/-- One source that reports twice. -/
def settlingRun : List (Op ℚ) :=
  [.addSource gps ⟨false, false, true, false, false⟩, .update (report 1 .none),
    .update (report 65 .none)]

/-- A configuration that steps beyond 128 ms. -/
def settlingConfig : Config ℚ where
  loop :=
    { stepThreshold := 128 / 1000, stepLimit := 3, panic := 1000, panicAtStartup := false
      maxSlewPPM := 500, precision := 1 / 1000000, timeConstant := 4, freqMeasure := 0 }
  minSurvivors := 1
  holdoverMax := 3600
  settleUpdates := 1
  localRefIDs := []

/-- The run ends SYNCED, on two loop updates and one counted acquisition. -/
theorem synced_on_evidence_settlingRun :
    let w := settlingRun.foldl observe (watch settlingConfig 0 false)
    w.1.state = .synced ∧ w.2 = ⟨2, 1⟩ ∧ w.2.Enough (max 1 settlingConfig.settleUpdates) := by
  have h : let w := settlingRun.foldl observe (watch settlingConfig 0 false)
      w.1.state = .synced ∧ w.2 = ⟨2, 1⟩ := by decide +kernel
  exact ⟨h.1, h.2, (synced_on_evidence settlingConfig 0 false settlingRun).1 (.inl h.1)⟩

end Carillon.Discipline
