/-
# Silence: how long a clock is served when its sources stop measuring

An estimate stands for `freshnessDeadline` of its source's poll exponent, and a
clock without estimates coasts for `HoldoverMax`.  Misses, invalidations and
resynchronisations may go on in between and move the state machine; this module
shows that they cannot restart either timer once the last estimate is stale.

* `SameEstimate`, `RolesOf`: a selection writes roles into the sources, never
  estimates;
* `Aged`: every estimate was taken by `t₀`, under a poll exponent of at most `P`;
* `Lapsing`: the invariant of a silent run, and `lapsing_apply`, its step lemma.
-/
import Carillon.Discipline.Selection
import Carillon.Discipline.Settling

namespace Carillon.Discipline

variable {K : Type}

/-! ## A selection changes roles only -/

/-- The two differ in what a selection makes of an estimate at most. -/
structure SourceState.SameEstimate (s t : SourceState K) : Prop where
  poll : t.poll = s.poll
  valid : t.valid = s.valid
  updated : t.updated = s.updated

/-- Each source of the second list is one of the first in another role. -/
def RolesOf (l l' : List (SourceState K)) : Prop :=
  ∀ t ∈ l', ∃ s ∈ l, s.SameEstimate t

variable [Field K] [LinearOrder K]

theorem examine_same (s : SourceState K) (now : K) (o : SelectOptions K) :
    s.SameEstimate (s.examine now o).source := by
  unfold SourceState.examine
  dsimp only
  split_ifs <;> exact ⟨rfl, rfl, rfl⟩

/-- **A selection writes roles, never estimates.** -/
theorem rolesOf_selectAt [HasSqrt K] (sources : List (SourceState K)) (now : K) (n : ℤ)
    (o : SelectOptions K) : RolesOf sources (selectAt sources now n o).1 := by
  have hexamined : RolesOf sources (examinedSources sources now o) := by
    intro t ht
    obtain ⟨e, he, rfl⟩ := List.mem_map.mp ht
    obtain ⟨s, hs, rfl⟩ := List.mem_map.mp he
    exact ⟨s, hs, examine_same s now o⟩
  intro t ht
  rw [(selectAt_fields sources now n o).1] at ht
  rcases mem_writeBack ht with ht | ⟨ht, -⟩
  · -- what the phases decide about is a usable source, but for its role
    obtain ⟨u, hu, hbare⟩ := bare_mem_usable ht
    obtain ⟨s, hs, hsame⟩ := hexamined u ((usable_sublist sources now o).subset hu)
    refine ⟨s, hs, ?_, ?_, ?_⟩
    · exact (congrArg SourceState.poll hbare).trans hsame.poll
    · exact (congrArg SourceState.valid hbare).trans hsame.valid
    · exact (congrArg SourceState.updated hbare).trans hsame.updated
  · exact hexamined t ht

/-! ## Stale estimates -/

/-- The estimate, if there is one, was taken by `t₀` under a poll exponent of at
most `P`. -/
def SourceState.Aged (t₀ : K) (P : ℤ) (s : SourceState K) : Prop :=
  s.valid = true → s.updated ≤ t₀ ∧ s.poll ≤ P

variable {P : ℤ} {t₀ : K}

omit [Field K] in
theorem RolesOf.aged {l l' : List (SourceState K)} (h : RolesOf l l') (ha : ∀ s ∈ l, s.Aged t₀ P) :
    ∀ s ∈ l', s.Aged t₀ P := by
  intro t ht hvalid
  obtain ⟨s, hs, hsame⟩ := h t ht
  rw [hsame.updated, hsame.poll]
  exact ha s hs (hsame.valid.symm.trans hvalid)

/-- A slower source may be silent for longer. -/
theorem freshnessDeadline_mono [IsStrictOrderedRing K] {p q : ℤ} (h : p ≤ q) :
    (freshnessDeadline p : K) ≤ freshnessDeadline q := by
  have hclamp : max minPoll (min maxPoll p) ≤ max minPoll (min maxPoll q) :=
    max_le_max_left _ (min_le_min_left _ h)
  have hpow : (2 : K) ^ max minPoll (min maxPoll p) ≤ 2 ^ max minPoll (min maxPoll q) :=
    zpow_le_zpow_right₀ one_le_two hclamp
  unfold freshnessDeadline
  exact max_le_max_left _ (mul_le_mul_of_nonneg_left hpow (by norm_num))

theorem candidate_unfit {s : SourceState K} (h : s.valid = false ∨ s.stale = true) :
    s.candidate.isNone = false := by
  unfold SourceState.candidate
  rcases h with h | h <;> split_ifs <;> simp_all

/-- A source without an estimate, or with a stale one, is not usable. -/
theorem examine_unfit {now : K} {s : SourceState K}
    (h : s.valid = false ∨ (s.valid && decide (freshnessDeadline s.poll < now - s.updated)) = true)
    (o : SelectOptions K) : (s.examine now o).usable = false := by
  unfold SourceState.examine
  dsimp only
  rw [candidate_unfit h, Bool.false_and]
  rfl

/-- Past the deadline an aged estimate is not usable. -/
theorem examine_stale [IsStrictOrderedRing K] {t₀ now : K} {s : SourceState K} (h : s.Aged t₀ P)
    (hlate : t₀ + freshnessDeadline P < now) (o : SelectOptions K) :
    (s.examine now o).usable = false := by
  refine examine_unfit ?_ o
  by_cases hvalid : s.valid = true
  · obtain ⟨hupdated, hpoll⟩ := h hvalid
    have hdeadline : (freshnessDeadline s.poll : K) ≤ freshnessDeadline P :=
      freshnessDeadline_mono hpoll
    have hstale : freshnessDeadline s.poll < now - s.updated := by linarith
    exact .inr (by simp [hvalid, hstale])
  · exact .inl (by simpa using hvalid)

/-- Without a usable source nothing survives and nothing is selected. -/
theorem selectAt_unusable [HasSqrt K] {sources : List (SourceState K)} {now : K}
    {o : SelectOptions K} (h : ∀ s ∈ sources, (s.examine now o).usable = false) (n : ℤ) :
    (selectAt sources now n o).2.system = none ∧ (selectAt sources now n o).2.survivors = [] := by
  have hnone : (sources.map (·.examine now o)).filter (·.usable) = [] := by
    rw [List.filter_eq_nil_iff]
    intro x hx
    obtain ⟨s, hs, rfl⟩ := List.mem_map.mp hx
    rw [h s hs]
    exact Bool.false_ne_true
  have hsystem : systemSource ([] : List (SourceState K)) = none := rfl
  unfold selectAt
  dsimp only
  rw [hnone]
  simp [intersect, intersection, cluster, clusterRounds, hsystem]

omit [Field K] in
/-- Recording a report keeps the estimate, takes it back or replaces it. -/
theorem apply_aged {s : SourceState K} (h : s.Aged t₀ P) {m : Measurement K}
    (hm : (m.valid = true → m.now ≤ t₀) ∧ m.poll ≤ P) : (s.apply m).Aged t₀ P := by
  have hleap : ∀ u : SourceState K, u.SameEstimate (u.applyLeap m) := by
    intro u
    unfold SourceState.applyLeap
    split_ifs <;> exact ⟨rfl, rfl, rfl⟩
  unfold SourceState.Aged SourceState.apply
  dsimp only
  by_cases hvalid : m.valid = true
  · rw [if_pos hvalid]
    intro _
    refine ⟨hm.1 hvalid, ?_⟩
    dsimp only
    rw [(hleap _).poll]
    split <;> exact hm.2
  · rw [if_neg hvalid, (hleap _).valid, (hleap _).updated, (hleap _).poll]
    split
    · exact fun hcontra => absurd hcontra Bool.false_ne_true
    · exact fun hstill => ⟨(h hstill).1, hm.2⟩

/-! ## Reselection and holdover -/

/-- Every estimate of the system is aged. -/
def System.Aged (t₀ : K) (P : ℤ) (s : System K) : Prop :=
  ∀ t ∈ s.sources, t.Aged t₀ P

/-- Holdover is entered at `now`, or it goes on as it was. -/
def System.Coasts (s s' : System K) (now : K) : Prop :=
  s'.state = .holdover →
    s'.holdoverSince = now ∨ s.state = .holdover ∧ s'.holdoverSince = s.holdoverSince

omit [Field K] [LinearOrder K] in
@[simp] theorem setState_state (s : System K) (new : State) : (s.setState new).1.state = new := by
  unfold System.setState
  split
  case isTrue h => exact h
  case isFalse => rfl

omit [Field K] [LinearOrder K] in
@[simp] theorem setState_holdoverSince (s : System K) (new : State) :
    (s.setState new).1.holdoverSince = s.holdoverSince := by
  unfold System.setState
  split <;> rfl

omit [Field K] [LinearOrder K] in
@[simp] theorem setState_sources (s : System K) (new : State) :
    (s.setState new).1.sources = s.sources := by
  unfold System.setState
  split <;> rfl

omit [Field K] [LinearOrder K] in
/-- Losing the system source leaves a clock that coasts, if it was served before, or
is given up. -/
theorem loseSystem_coasts (s : System K) (now : K) :
    ((s.loseSystem now).1.state = .unsynced ∨
        (s.loseSystem now).1.state = .holdover ∧ s.state ≠ .unsynced ∧
          (s.state = .holdover → (s.loseSystem now).1.holdoverSince = s.holdoverSince)) ∧
      s.Coasts (s.loseSystem now).1 now ∧ (s.loseSystem now).1.sources = s.sources := by
  unfold System.Coasts System.loseSystem
  dsimp only
  split
  · rename_i hstate
    simp [hstate]
  · rename_i hstate
    split <;> simp [hstate]
  · rename_i hstate
    simp [hstate]
  · rename_i hstate
    simp [hstate]

/-- A system source ends holdover, with a new sample or without. -/
theorem idle_leaves (s : System K) : s.idle.1.state ≠ .holdover ∧ s.idle.1.sources = s.sources := by
  have hleft : s.leaveHoldover.1.state ≠ .holdover ∧ s.leaveHoldover.1.sources = s.sources := by
    unfold System.leaveHoldover
    split
    · simp
    · rename_i hstate
      exact ⟨hstate, rfl⟩
  unfold System.idle
  dsimp only
  split
  · exact ⟨by simp, by rw [setState_sources]; exact hleft.2⟩
  · exact hleft

/-- Whatever the loop says of a sample, holdover goes on as it was or ends. -/
theorem conclude_coasts (s : System K) (sel : Selection K) (sys : SourceState K) (now : K)
    (v : Verdict K) : s.Coasts (s.conclude sel sys now v).1 now := by
  intro hstate
  cases v with
  | deferred => exact .inr ⟨hstate, rfl⟩
  | panicRefused => exact absurd hstate (by simp [System.conclude])
  | ignored => exact .inr ⟨hstate, rfl⟩
  | stepped actions => exact absurd hstate (by simp [System.conclude, System.adopt, System.restart])
  | updated =>
    refine absurd hstate ?_
    unfold System.conclude System.adopt System.advance
    dsimp only
    split
    case isTrue hsynced => simp [hsynced]
    case isFalse => split <;> simp

variable {s : System K}

/-- A step takes the estimates back; nothing else touches them. -/
theorem conclude_aged (h : s.Aged t₀ P) (sel : Selection K) (sys : SourceState K) (now : K)
    (v : Verdict K) : (s.conclude sel sys now v).1.Aged t₀ P := by
  cases v with
  | deferred => exact h
  | panicRefused =>
    unfold System.Aged System.conclude
    dsimp only
    rw [setState_sources]
    exact h
  | ignored => exact h
  | stepped actions =>
    unfold System.Aged System.conclude System.adopt System.restart
    dsimp only
    rw [setState_sources]
    intro t ht hvalid
    obtain ⟨u, -, rfl⟩ := List.mem_map.mp ht
    exact absurd hvalid Bool.false_ne_true
  | updated =>
    have hsources : (s.conclude sel sys now .updated).1.sources = s.sources := by
      unfold System.conclude System.adopt System.advance
      dsimp only
      split
      · rfl
      · split <;> rw [setState_sources]
    unfold System.Aged
    rw [hsources]
    exact h

theorem drive_coasts [HasSqrt K] (h : s.Aged t₀ P) (sel : Selection K) (now : K)
    (sys : Option (SourceState K)) :
    s.Coasts (s.drive sel now sys).1 now ∧ (s.drive sel now sys).1.Aged t₀ P := by
  cases sys with
  | none =>
    obtain ⟨-, hcoasts, hsources⟩ := loseSystem_coasts s now
    refine ⟨hcoasts, ?_⟩
    show ∀ t ∈ (s.loseSystem now).1.sources, t.Aged t₀ P
    rw [hsources]
    exact h
  | some sys =>
    unfold System.drive
    dsimp only
    split
    · obtain ⟨hleft, hsources⟩ := idle_leaves { s with sysName := some sys.name }
      refine ⟨fun hstate => absurd hstate hleft, ?_⟩
      show ∀ t ∈ ({ s with sysName := some sys.name } : System K).idle.1.sources, t.Aged t₀ P
      rw [hsources]
      exact h
    · refine ⟨conclude_coasts _ _ _ _ _, conclude_aged ?_ _ _ _ _⟩
      intro t ht
      obtain ⟨u, hu, rfl⟩ := List.mem_map.mp ht
      split
      · exact h u hu
      · exact h u hu

omit [Field K] [LinearOrder K] in
theorem System.Effect.cfg_eq {s t : System K} (h : s.Effect t) : t.cfg = s.cfg := by
  cases h with
  | quiet kept => exact kept.cfg
  | stepped cfg => exact cfg
  | updated cfg => exact cfg

/-- A reselection at any time. -/
theorem reselect_coasts [HasSqrt K] (h : s.Aged t₀ P) (now : K) :
    s.Coasts (s.reselect now).1 now ∧ (s.reselect now).1.Aged t₀ P := by
  have haged : ∀ all sel, RolesOf s.sources all → (s.record all sel now).Aged t₀ P :=
    fun _ _ hroles => hroles.aged h
  have hroles := rolesOf_selectAt s.sources now s.cfg.minSurvivors
    ⟨s.cfg.localRefIDs, s.loop.appliedSince⟩
  unfold System.reselect
  dsimp only
  -- which sources are selected does not matter
  generalize selectAt s.sources now s.cfg.minSurvivors ⟨s.cfg.localRefIDs, s.loop.appliedSince⟩ = r
    at hroles ⊢
  exact drive_coasts (haged r.1 r.2 hroles) r.2 now r.2.system

/-- A reselection past the deadline finds no source: it starts no holdover that is
not entered from a clock that is served. -/
theorem reselect_stale [HasSqrt K] [IsStrictOrderedRing K] (h : s.Aged t₀ P) {now : K}
    (hlate : t₀ + freshnessDeadline P < now) :
    (s.reselect now).1.state = .unsynced ∨
      (s.reselect now).1.state = .holdover ∧ s.state ≠ .unsynced ∧
        (s.state = .holdover → (s.reselect now).1.holdoverSince = s.holdoverSince) := by
  have hnone := (selectAt_unusable (fun t ht => examine_stale (h t ht) hlate
    ⟨s.cfg.localRefIDs, s.loop.appliedSince⟩) s.cfg.minSurvivors).1
  unfold System.reselect
  dsimp only
  rw [hnone]
  exact (loseSystem_coasts _ now).1

/-- A resynchronisation takes back every indication: nobody votes. -/
theorem resync_leap [HasSqrt K] (s : System K) (now : K) : (s.resync now).1.leap = .unsync := by
  have hunfit : ∀ t ∈ s.sources.map SourceState.invalidate,
      (t.examine now ⟨s.cfg.localRefIDs, s.loop.appliedSince⟩).usable = false := by
    intro t ht
    obtain ⟨u, -, rfl⟩ := List.mem_map.mp ht
    exact examine_unfit (.inl rfl) _
  have hnone := selectAt_unusable hunfit s.cfg.minSurvivors
  have hlose : ∀ u : System K, (u.loseSystem now).1.leap = u.leap := by
    intro u
    unfold System.loseSystem System.setState
    dsimp only
    split
    · split <;> rfl
    · split
      · split <;> rfl
      · split <;> rfl
    · rfl
    · rfl
  unfold System.resync System.reselect
  dsimp only
  rw [hnone.1]
  unfold System.drive
  dsimp only
  rw [hlose]
  unfold System.record
  dsimp only
  rw [hnone.2]
  rfl

/-! ## Silent runs -/

/-- The time an operation is made at; a registration carries none. -/
def Op.time : Op K → Option K
  | .addSource _ _ => none
  | .removeSource _ now | .tick now | .invalidateSources now | .resync now => some now
  | .update m => some m.now

/-- The operation applies no `Valid` measurement. -/
def Op.Silent : Op K → Prop
  | .update m => m.valid = false
  | _ => True

/-- A report has a poll exponent of at most `P`. -/
def Op.PollsUpTo (P : ℤ) : Op K → Prop
  | .update m => m.poll ≤ P
  | _ => True

/-- A measurement that brings an estimate is made by `t₀`, and every report has a
poll exponent of at most `P`. -/
def Op.Quiet (t₀ : K) (P : ℤ) : Op K → Prop
  | .update m => (m.valid = true → m.now ≤ t₀) ∧ m.poll ≤ P
  | _ => True

/-- The operations are made at nondecreasing times from `c` on. -/
def Ordered : K → List (Op K) → Prop
  | _, [] => True
  | c, op :: ops => (∀ t ∈ op.time, c ≤ t) ∧ Ordered (op.time.getD c) ops

/-- Each tick comes at most `d` after the one before it; the first one before was
at `τ`. -/
def Paced (d : K) : K → List (Op K) → Prop
  | _, [] => True
  | τ, .tick now :: ops => now ≤ τ + d ∧ Paced d now ops
  | τ, _ :: ops => Paced d τ ops

/-- A system whose estimates are all from before `t₀`: what is known of holdover at
time `clock`, when the last tick was at `ticked`. -/
structure Lapsing (t₀ d : K) (P : ℤ) (s : System K) (clock ticked : K) : Prop where
  aged : s.Aged t₀ P
  order : ticked ≤ clock
  holdover : s.state = .holdover → s.holdoverSince ≤ clock
  lapsed : t₀ + freshnessDeadline P < ticked →
    s.state = .unsynced ∨ s.state = .holdover ∧ s.holdoverSince ≤ t₀ + freshnessDeadline P + d

/-- Outside of ticks an operation is a reselection at its own time, or nothing,
from a system with other sources at most. -/
theorem apply_reselects [HasSqrt K] (h : s.Aged t₀ P) {op : Op K} (hop : op.Quiet t₀ P)
    (hnot : ∀ now, op ≠ .tick now) :
    ∃ t : System K, t.Aged t₀ P ∧ t.state = s.state ∧ t.holdoverSince = s.holdoverSince ∧
      ((s.apply op).1 = t ∨ ∃ now, op.time = some now ∧ (s.apply op).1 = (t.reselect now).1) := by
  have hinvalid : ∀ t ∈ s.sources.map SourceState.invalidate, t.Aged t₀ P := by
    intro t ht hvalid
    obtain ⟨u, -, rfl⟩ := List.mem_map.mp ht
    exact absurd hvalid Bool.false_ne_true
  cases op with
  | addSource name o =>
    refine ⟨s.addSource name o, ?_, ?_, ?_, .inl rfl⟩
    · have hfresh : (SourceState.fresh name o).Aged t₀ P :=
        fun hvalid => absurd hvalid Bool.false_ne_true
      unfold System.Aged System.addSource
      split
      · intro t ht
        obtain ⟨u, hu, rfl⟩ := List.mem_map.mp ht
        split
        · exact hfresh
        · exact h u hu
      · intro t ht
        rcases List.mem_append.mp ht with ht | ht
        · exact h t ht
        · rw [List.mem_singleton.mp ht]
          exact hfresh
    · unfold System.addSource
      split <;> rfl
    · unfold System.addSource
      split <;> rfl
  | removeSource name now =>
    unfold System.apply System.removeSource
    dsimp only
    split
    · refine ⟨{ s with sources := s.sources.filter (·.name ≠ name) }, ?_, rfl, rfl,
        .inr ⟨now, rfl, rfl⟩⟩
      intro t ht
      exact h t (List.mem_of_mem_filter ht)
    · exact ⟨s, h, rfl, rfl, .inl rfl⟩
  | update m =>
    unfold System.apply System.update
    dsimp only
    split
    · refine ⟨s.take m, ?_, rfl, rfl, .inr ⟨m.now, rfl, rfl⟩⟩
      intro t ht
      obtain ⟨u, hu, rfl⟩ := List.mem_map.mp ht
      split
      · exact apply_aged (h u hu) hop
      · exact h u hu
    · exact ⟨s, h, rfl, rfl, .inl rfl⟩
  | tick now => exact absurd rfl (hnot now)
  | invalidateSources now =>
    exact ⟨{ s with sources := s.sources.map SourceState.invalidate }, hinvalid, rfl, rfl,
      .inr ⟨now, rfl, rfl⟩⟩
  | resync now =>
    exact ⟨{ s with
      sources := s.sources.map SourceState.invalidate
      resyncing := decide (s.state = State.synced ∨ s.state = State.holdover) }, hinvalid, rfl, rfl,
      .inr ⟨now, rfl, rfl⟩⟩

/-- A reselection of a lapsing system, whatever was written into it before. -/
theorem lapsing_reselect [HasSqrt K] [IsStrictOrderedRing K] {t₀ d clock ticked now : K}
    {s t : System K} (h : Lapsing t₀ d P s clock ticked) (haged : t.Aged t₀ P)
    (hstate : t.state = s.state) (hsince : t.holdoverSince = s.holdoverSince) (hnow : clock ≤ now) :
    Lapsing t₀ d P (t.reselect now).1 now ticked := by
  obtain ⟨hcoasts, haged'⟩ := reselect_coasts haged now
  refine ⟨haged', h.order.trans hnow, fun hold => ?_, fun hlapsed => ?_⟩
  · rcases hcoasts hold with hnew | ⟨hold, hsame⟩
    · exact hnew.le
    · rw [hsame, hsince]
      exact (h.holdover (hstate ▸ hold)).trans hnow
  · -- past the deadline there is no system source, so holdover is not entered anew
    have hlate : t₀ + freshnessDeadline P < now := hlapsed.trans_le (h.order.trans hnow)
    rcases reselect_stale haged hlate with hunsynced | ⟨hold, hserved, hsame⟩
    · exact .inl hunsynced
    · rw [hstate, hsince] at hsame
      rw [hstate] at hserved
      rcases h.lapsed hlapsed with hwas | ⟨hwas, hbound⟩
      · exact absurd hwas hserved
      · exact .inr ⟨hold, (hsame hwas).trans_le hbound⟩

/-- **Step lemma.**  An operation at `now` keeps the invariant; a tick is one that
comes no later than `d` after the last. -/
theorem lapsing_apply [HasSqrt K] [IsStrictOrderedRing K] {t₀ d clock ticked : K}
    (h : Lapsing t₀ d P s clock ticked) {op : Op K} (hop : op.Quiet t₀ P)
    (hnot : ∀ now, op ≠ .tick now) (horder : ∀ t ∈ op.time, clock ≤ t) :
    Lapsing t₀ d P (s.apply op).1 (op.time.getD clock) ticked := by
  obtain ⟨t, haged, hstate, hsince, hsame | ⟨now, htime, hreselect⟩⟩ :=
    apply_reselects h.aged hop hnot
  · have hle : clock ≤ op.time.getD clock := by
      cases htime : op.time with
      | none => exact le_refl clock
      | some now => exact horder now htime
    rw [hsame]
    refine ⟨haged, h.order.trans hle, ?_, ?_⟩
    · rw [hstate, hsince]
      exact fun hold => (h.holdover hold).trans hle
    · rw [hstate, hsince]
      exact h.lapsed
  · rw [hreselect, htime]
    exact lapsing_reselect h haged hstate hsince (horder now htime)

theorem lapsing_tick [HasSqrt K] [IsStrictOrderedRing K] {t₀ d clock ticked now : K}
    (h : Lapsing t₀ d P s clock ticked) (horder : clock ≤ now) (hpaced : now ≤ ticked + d) :
    Lapsing t₀ d P (s.tick now).1 now now := by
  have hreselect := lapsing_reselect h h.aged rfl rfl horder
  -- the tick's own reselection starts the clock on holdover if nothing did before
  have hbound : t₀ + freshnessDeadline P < now →
      (s.reselect now).1.state = .unsynced ∨ (s.reselect now).1.state = .holdover ∧
        (s.reselect now).1.holdoverSince ≤ t₀ + freshnessDeadline P + d := by
    intro hlate
    by_cases hlapsed : t₀ + freshnessDeadline P < ticked
    · exact hreselect.lapsed hlapsed
    · rcases reselect_stale h.aged hlate with hunsynced | ⟨hold, -, -⟩
      · exact .inl hunsynced
      · have hsince := hreselect.holdover hold
        exact .inr ⟨hold, by linarith⟩
  unfold System.tick System.expire
  dsimp only
  split
  · refine ⟨?_, le_refl now, ?_, fun _ => .inl (setState_state _ _)⟩
    · unfold System.Aged
      rw [setState_sources]
      exact hreselect.aged
    · intro hold
      exact absurd ((setState_state _ _).symm.trans hold) (by decide)
  · exact ⟨hreselect.aged, le_refl now, hreselect.holdover, hbound⟩

/-- A tick finds out that holdover has lasted too long. -/
theorem tick_expires [HasSqrt K] {now : K}
    (h : (s.reselect now).1.state = .unsynced ∨ (s.reselect now).1.state = .holdover ∧
      s.cfg.holdoverMax < now - (s.reselect now).1.holdoverSince) :
    (s.tick now).1.state = .unsynced := by
  have hcfg : (s.reselect now).1.cfg = s.cfg := (reselect_effect s now).cfg_eq
  unfold System.tick System.expire
  dsimp only
  rw [hcfg]
  rcases h with h | h
  · rw [if_neg (by rw [h]; simp)]
    exact h
  · rw [if_pos h, setState_state]

/-- The system after the operations of a list. -/
def System.applyAll [HasSqrt K] (s : System K) (ops : List (Op K)) : System K :=
  ops.foldl (fun s op => (s.apply op).1) s

/-- The time of the last operation, from `c` on. -/
def lastTime (c : K) (ops : List (Op K)) : K := ops.foldl (fun c op => op.time.getD c) c

/-- The time of the last tick, from `τ` on. -/
def lastTick (τ : K) (ops : List (Op K)) : K :=
  ops.foldl (fun τ op => match op with | .tick now => now | _ => τ) τ

variable {ops : List (Op K)}

/-- **Run lemma.** -/
theorem lapsing_run [HasSqrt K] [IsStrictOrderedRing K] {t₀ d : K}
    (hquiet : ∀ op ∈ ops, op.Quiet t₀ P) {clock ticked : K} (h : Lapsing t₀ d P s clock ticked)
    (horder : Ordered clock ops) (hpaced : Paced d ticked ops) :
    Lapsing t₀ d P (s.applyAll ops) (lastTime clock ops) (lastTick ticked ops) := by
  induction ops generalizing s clock ticked with
  | nil => exact h
  | cons op ops ih =>
    have hrest : ∀ op ∈ ops, op.Quiet t₀ P := fun o ho => hquiet o (List.mem_cons_of_mem _ ho)
    have hop := hquiet op (List.mem_cons_self ..)
    cases op with
    | tick now => exact ih hrest (lapsing_tick h (horder.1 now rfl) hpaced.1) horder.2 hpaced.2
    | addSource name o =>
      exact ih hrest (lapsing_apply h hop (fun _ => by simp) horder.1) horder.2 hpaced
    | removeSource name now =>
      exact ih hrest (lapsing_apply h hop (fun _ => by simp) horder.1) horder.2 hpaced
    | update m => exact ih hrest (lapsing_apply h hop (fun _ => by simp) horder.1) horder.2 hpaced
    | invalidateSources now =>
      exact ih hrest (lapsing_apply h hop (fun _ => by simp) horder.1) horder.2 hpaced
    | resync now => exact ih hrest (lapsing_apply h hop (fun _ => by simp) horder.1) horder.2 hpaced

/-- Before `t₀` nothing is known but that holdover was entered before `t₀` too. -/
theorem early_run [HasSqrt K] (hquiet : ∀ op ∈ ops, op.Quiet t₀ P)
    (hearly : ∀ op ∈ ops, ∀ t ∈ op.time, t ≤ t₀) (haged : s.Aged t₀ P)
    (hold : s.state = .holdover → s.holdoverSince ≤ t₀) :
    (s.applyAll ops).Aged t₀ P ∧
      ((s.applyAll ops).state = .holdover → (s.applyAll ops).holdoverSince ≤ t₀) := by
  induction ops generalizing s with
  | nil => exact ⟨haged, hold⟩
  | cons op ops ih =>
    have hreselect : ∀ (t : System K) (now : K), t.Aged t₀ P → t.state = s.state →
        t.holdoverSince = s.holdoverSince → now ≤ t₀ → (t.reselect now).1.Aged t₀ P ∧
          ((t.reselect now).1.state = .holdover → (t.reselect now).1.holdoverSince ≤ t₀) := by
      intro t now ht hstate hsince hnow
      obtain ⟨hcoasts, haged'⟩ := reselect_coasts ht now
      refine ⟨haged', fun h => ?_⟩
      rcases hcoasts h with hnew | ⟨hwas, hsame⟩
      · exact hnew.trans_le hnow
      · rw [hsame, hsince]
        exact hold (hstate ▸ hwas)
    have hstep : (s.apply op).1.Aged t₀ P ∧
        ((s.apply op).1.state = .holdover → (s.apply op).1.holdoverSince ≤ t₀) := by
      by_cases htick : ∃ now, op = .tick now
      · obtain ⟨now, rfl⟩ := htick
        have h := hreselect s now haged rfl rfl (hearly _ (List.mem_cons_self ..) now rfl)
        unfold System.apply System.tick System.expire
        dsimp only
        split
        · refine ⟨?_, fun hcontra => absurd ((setState_state _ _).symm.trans hcontra) (by decide)⟩
          unfold System.Aged
          rw [setState_sources]
          exact h.1
        · exact h
      · obtain ⟨t, ht, hstate, hsince, hsame | ⟨now, htime, hreselects⟩⟩ :=
          apply_reselects haged (hquiet op (List.mem_cons_self ..)) fun now h => htick ⟨now, h⟩
        · rw [hsame, hstate, hsince]
          exact ⟨ht, hold⟩
        · rw [hreselects]
          exact hreselect t now ht hstate hsince (hearly op (List.mem_cons_self ..) now htime)
    exact ih (fun o ho => hquiet o (List.mem_cons_of_mem _ ho))
      (fun o ho => hearly o (List.mem_cons_of_mem _ ho)) hstep.1 hstep.2

theorem applyAll_cfg [HasSqrt K] (s : System K) (ops : List (Op K)) :
    (s.applyAll ops).cfg = s.cfg := by
  induction ops generalizing s with
  | nil => rfl
  | cons op ops ih =>
    obtain ⟨t, -, hcfg, -, -, heffect⟩ := apply_effect s op
    exact (ih (s.apply op).1).trans (heffect.cfg_eq.trans hcfg)

omit [Field K] in
theorem ordered_concat {c now : K} (h : Ordered c (ops ++ [.tick now])) :
    Ordered c ops ∧ lastTime c ops ≤ now := by
  induction ops generalizing c with
  | nil => exact ⟨trivial, h.1 now rfl⟩
  | cons op ops ih =>
    obtain ⟨hrest, hlast⟩ := ih h.2
    exact ⟨⟨h.1, hrest⟩, hlast⟩

theorem paced_concat {d τ now : K} (h : Paced d τ (ops ++ [.tick now])) :
    Paced d τ ops ∧ now ≤ lastTick τ ops + d := by
  induction ops generalizing τ with
  | nil => exact ⟨trivial, h.1⟩
  | cons op ops ih =>
    cases op with
    | tick at_ =>
      obtain ⟨hrest, hlast⟩ := ih h.2
      exact ⟨⟨h.1, hrest⟩, hlast⟩
    | _ => exact ih h

/-- **The silence bound.**  When no `Valid` measurement is applied after `t₀`, no
source reports a poll exponent above `P` and ticks are at most `d` apart, the clock is
UNSYNCED after every tick later than `t₀ + freshnessDeadline P + d + HoldoverMax`,
whatever misses, invalidations, resynchronisations and removals go on, and it is
served as stratum 16 with leap indicator 3. -/
theorem silence_unsyncs [HasSqrt K] [IsStrictOrderedRing K] (cfg : Config K) (freq : K)
    (known : Bool) (t₀ d now : K) (P : ℤ) (before after : List (Op K)) (hmax : 0 ≤ cfg.holdoverMax)
    (hearly : ∀ op ∈ before, ∀ t ∈ op.time, t ≤ t₀) (hsilent : ∀ op ∈ after, op.Silent)
    (hpoll : ∀ op ∈ before ++ after, op.PollsUpTo P)
    (horder : Ordered t₀ (after ++ [.tick now])) (hpaced : Paced d t₀ (after ++ [.tick now]))
    (hlate : t₀ + freshnessDeadline P + d + cfg.holdoverMax < now) :
    let s := (System.new cfg freq known).applyAll (before ++ after ++ [.tick now])
    s.state = .unsynced ∧ ∀ t, (s.status t).stratum = 16 ∧ (s.status t).leap = .unsync := by
  have hquietBefore : ∀ op ∈ before, op.Quiet t₀ P := by
    intro op hop
    have hup := hpoll op (List.mem_append_left _ hop)
    cases op with
    | update m => exact ⟨fun _ => hearly _ hop m.now rfl, hup⟩
    | _ => trivial
  have hquietAfter : ∀ op ∈ after, op.Quiet t₀ P := by
    intro op hop
    have hup := hpoll op (List.mem_append_right _ hop)
    have hsil := hsilent op hop
    cases op with
    | update m => exact ⟨fun hvalid => absurd (hvalid.symm.trans hsil) Bool.noConfusion, hup⟩
    | _ => trivial
  obtain ⟨horder', hnow⟩ := ordered_concat horder
  obtain ⟨hpaced', htick⟩ := paced_concat hpaced
  have hdeadline : (0 : K) < freshnessDeadline P :=
    lt_of_lt_of_le (by norm_num) (le_max_left _ _)
  have hstart := early_run hquietBefore hearly (s := System.new cfg freq known)
    (fun t ht => absurd ht (List.not_mem_nil)) (fun h => absurd h (by simp [System.new]))
  have hlapsing : Lapsing t₀ d P ((System.new cfg freq known).applyAll before) t₀ t₀ :=
    ⟨hstart.1, le_refl t₀, hstart.2, fun h => absurd h (by linarith)⟩
  have hrun := lapsing_run hquietAfter hlapsing horder' hpaced'
  have hcfg : (((System.new cfg freq known).applyAll before).applyAll after).cfg.holdoverMax
      = cfg.holdoverMax := by
    rw [applyAll_cfg, applyAll_cfg]
    rfl
  -- the tick before the last one is past the deadline already
  have hlapsed := (lapsing_reselect hrun hrun.aged rfl rfl hnow).lapsed (by linarith)
  intro s
  have hs : s = ((((System.new cfg freq known).applyAll before).applyAll after).tick now).1 := by
    show (before ++ after ++ [Op.tick now]).foldl _ _ = _
    rw [List.foldl_append, List.foldl_append]
    rfl
  have hstate : s.state = .unsynced := by
    rw [hs]
    refine tick_expires ?_
    rw [hcfg]
    exact hlapsed.imp_right fun ⟨hold, hsince⟩ => ⟨hold, by linarith⟩
  refine ⟨hstate, fun t => ?_⟩
  unfold System.status
  rw [hstate]
  exact ⟨rfl, rfl⟩

/-- After 65 s only misses, an invalidation and a resynchronisation go on. -/
def silentRun : List (Op ℚ) :=
  [.tick 300, .update { report 400 .none with valid := false, acquired := false, reach := 2 },
    .tick 600,
    .update { report 610 .none with valid := false, acquired := false, invalidate := true },
    .resync 800, .tick 1200]

/-- A minute of holdover. -/
def silentConfig : Config ℚ := { settlingConfig with holdoverMax := 60 }

/-- The clock is still SYNCED after the tick at 300 s, coasts after the one at 600 s,
and after the one at 1700 s it is UNSYNCED. -/
theorem silence_unsyncs_silentRun :
    let run := fun ops => ((System.new silentConfig 0 false).applyAll (settlingRun ++ ops)).state
    run (silentRun.take 1) = .synced ∧ run (silentRun.take 3) = .holdover ∧
      ((System.new silentConfig 0 false).applyAll (settlingRun ++ silentRun ++ [.tick 1700])).state
        = .unsynced := by
  have hfirst : let run := fun ops =>
      ((System.new silentConfig 0 false).applyAll (settlingRun ++ ops)).state
      run (silentRun.take 1) = .synced ∧ run (silentRun.take 3) = .holdover := by decide +kernel
  refine ⟨hfirst.1, hfirst.2,
    (silence_unsyncs silentConfig 0 false 65 600 1700 6 settlingRun silentRun
    ?_ ?_ ?_ ?_ ?_ ?_ ?_).1⟩
  · decide +kernel
  · simp [settlingRun, Op.time, report]
  · simp [silentRun, Op.Silent]
  · simp [settlingRun, silentRun, Op.PollsUpTo, report]
  · simp only [silentRun, List.cons_append, List.nil_append, Ordered, Op.time, report]
    norm_num
  · simp only [silentRun, List.cons_append, List.nil_append, Paced]
    norm_num
  · decide +kernel

end Carillon.Discipline
