/-
# When the clock is stepped

The permission to step is spread over three places: the update budget and the panic
limit of the loop, and the evidence the system asks for after an earlier step.  Each
source counts the valid measurements that arrived since the last step; `evidence` is
the sum of these counts.  One operation adds at most one to it, and a step clears it,
so two steps are never closer than the measurements that justify the second.
-/
import Carillon.Discipline.Silence

namespace Carillon.Discipline

variable {K : Type}

/-! ## Steps of a run -/

/-- The offsets by which a list of actions steps the clock. -/
def stepOffsets (actions : List (Action K)) : List K :=
  actions.filterMap fun
    | .step x => some x
    | .setFrequency _ | .resetFilters => none

@[simp] theorem stepOffsets_append (as bs : List (Action K)) :
    stepOffsets (as ++ bs) = stepOffsets as ++ stepOffsets bs :=
  List.filterMap_append

section Runs

variable [Field K] [LinearOrder K] [HasSqrt K]

/-- The offsets by which an operation steps the clock. -/
def System.stepsBy (s : System K) (op : Op K) : List K :=
  stepOffsets (s.apply op).2.actions

/-- The offsets by which a run steps the clock. -/
def System.stepsAlong : System K → List (Op K) → List K
  | _, [] => []
  | s, op :: ops => s.stepsBy op ++ (s.apply op).1.stepsAlong ops

omit [Field K] [LinearOrder K] [HasSqrt K] in
/-- The operation applies a valid measurement. -/
def System.appliesValid (s : System K) : Op K → Bool
  | .update m => s.registered m.source && m.valid
  | .addSource _ _ | .removeSource _ _ | .tick _ | .invalidateSources _ | .resync _ => false

/-- The number of valid measurements a run applies. -/
def System.validAlong : System K → List (Op K) → ℕ
  | _, [] => 0
  | s, op :: ops => (s.appliesValid op).toNat + (s.apply op).1.validAlong ops

end Runs

/-! ## The loop -/

section Loop

variable [Field K] [LinearOrder K]

/-- **What lets the loop step**: permission from the caller, an update left in the
budget, and an offset beyond a threshold; beyond the panic limit only on the first
update, if the configuration allows it. -/
structure Loop.StepGranted (l : Loop K) (offset : K) (mayStep : Bool) : Prop where
  may : mayStep = true
  allowed : l.stepAllowed = true
  large : l.cfg.panic < |offset| ∨ l.cfg.stepThreshold < |offset|
  panic : l.cfg.panic < |offset| → l.updates = 0 ∧ l.cfg.panicAtStartup = true

/-- The loop steps only where it may. -/
theorem update_stepped [HasSqrt K] {l l' : Loop K} {offset now : K} {poll : ℤ}
    {synced mayStep : Bool}
    {actions : List (Action K)}
    (h : l.update offset poll now synced mayStep = (l', .stepped actions)) :
    l.StepGranted offset mayStep := by
  unfold Loop.update at h
  dsimp only at h
  generalize (if l.updates = 0 then 0 else now - l.lastUpdate) = mu at h
  split_ifs at h with hpanic hfirst hmay hlarge hmay hspike
  · simp at h
  · simp only [Bool.or_eq_true, Bool.not_eq_true', not_or, Bool.not_eq_false, Bool.and_eq_true,
      decide_eq_true_eq] at hfirst
    exact ⟨hmay, hfirst.2, .inl hpanic, fun _ => hfirst.1⟩
  · simp at h
  · simp only [Bool.and_eq_true, decide_eq_true_eq] at hlarge
    exact ⟨hmay, hlarge.2, .inr hlarge.1, fun hcontra => absurd hcontra hpanic⟩
  · simp at h
  · simp at h
  · simp at h

theorem tick_cfg (l : Loop K) (now : K) : (l.tick now).1.cfg = l.cfg := by
  have h := (chargeApplied_settings l now).2.1
  unfold Loop.tick
  dsimp only
  split_ifs <;> exact h

/-- The configuration stays. -/
theorem update_cfg [HasSqrt K] (l : Loop K) (offset : K) (poll : ℤ) (now : K)
    (synced mayStep : Bool) : (l.update offset poll now synced mayStep).1.cfg = l.cfg := by
  have hjitter : (l.noteJitter offset).cfg = l.cfg := by
    unfold Loop.noteJitter
    dsimp only
    split_ifs <;> rfl
  have hlearn : ∀ (l : Loop K) (mu tau : K), (l.learn offset mu tau now).cfg = l.cfg := by
    intro l mu tau
    unfold Loop.learn
    dsimp only
    split_ifs <;> rfl
  unfold Loop.update
  dsimp only
  generalize (if l.updates = 0 then 0 else now - l.lastUpdate) = mu
  split_ifs
  all_goals try rfl
  show (Loop.chargeApplied _ now).cfg = l.cfg
  rw [(chargeApplied_settings _ now).2.1, hlearn, hjitter]

end Loop

/-! ## The system -/

/-- The valid measurements that the registered sources have delivered since the last
step, by their own counts. -/
def System.heard (s : System K) : ℕ := (s.sources.map (·.sinceStep)).sum

/-- Between the two systems no step was made. -/
structure System.Calm (s t : System K) : Prop where
  cfg : t.loop.cfg = s.loop.cfg
  steps : t.loop.steps = s.loop.steps
  updates : s.loop.updates ≤ t.loop.updates
  names : t.sources.map (·.name) = s.sources.map (·.name)
  heard : t.sources.map (·.sinceStep) = s.sources.map (·.sinceStep)

/-- Between the two systems a step was made. -/
structure System.Stepped (s t : System K) : Prop where
  cfg : t.loop.cfg = s.loop.cfg
  steps : t.loop.steps = s.loop.steps + 1
  updates : t.loop.updates = s.loop.updates + 1
  names : t.sources.map (·.name) = s.sources.map (·.name)
  heard : t.heard = 0

theorem System.Calm.trans {s t u : System K} (h : s.Calm t) (h' : t.Calm u) : s.Calm u where
  cfg := h'.cfg.trans h.cfg
  steps := h'.steps.trans h.steps
  updates := h.updates.trans h'.updates
  names := h'.names.trans h.names
  heard := h'.heard.trans h.heard

/-- A change to the state machine alone is no step. -/
theorem System.Calm.of_eq {s t : System K} (hloop : t.loop = s.loop)
    (hsources : t.sources = s.sources) : s.Calm t :=
  ⟨by rw [hloop], by rw [hloop], by rw [hloop], by rw [hsources], by rw [hsources]⟩

variable {s : System K}

/-- A change of state is no step. -/
theorem calm_setState (t : System K) (new : State) (h : s.Calm t) :
    s.Calm (t.setState new).1 := by
  unfold System.setState
  split
  · exact h
  · exact ⟨h.cfg, h.steps, h.updates, h.names, h.heard⟩

/-- The loss of the system is no step. -/
theorem loseSystem_calm (s : System K) (now : K) : s.Calm (s.loseSystem now).1 := by
  unfold System.loseSystem
  dsimp only
  split
  · exact calm_setState _ _ (.of_eq rfl rfl)
  · split
    · exact calm_setState _ _ (.of_eq rfl rfl)
    · exact calm_setState _ _ (.of_eq rfl rfl)
  · exact .of_eq rfl rfl
  · exact .of_eq rfl rfl

theorem consume_calm (s : System K) (sys : SourceState K) (l : Loop K) (hcfg : l.cfg = s.loop.cfg)
    (hsteps : l.steps = s.loop.steps) (hupdates : s.loop.updates ≤ l.updates) :
    s.Calm { s.consume sys with loop := l } := by
  refine ⟨hcfg, hsteps, hupdates, ?_, ?_⟩
  · show (List.map _ _).map _ = _
    rw [List.map_map]
    apply List.map_congr_left
    intro t _
    show (if _ then _ else _ : SourceState K).name = t.name
    split <;> rfl
  · show (List.map _ _).map _ = _
    rw [List.map_map]
    apply List.map_congr_left
    intro t _
    show (if _ then _ else _ : SourceState K).sinceStep = t.sinceStep
    split <;> rfl

variable [Field K] [LinearOrder K]

theorem idle_calm (s : System K) : s.Calm s.idle.1 := by
  have hleft : s.Calm s.leaveHoldover.1 := by
    unfold System.leaveHoldover
    split
    · exact calm_setState _ _ (.of_eq rfl rfl)
    · exact .of_eq rfl rfl
  unfold System.idle
  dsimp only
  split
  · exact calm_setState _ _ hleft
  · exact hleft

/-- The end of a holdover is no step. -/
theorem expire_calm (s : System K) (now : K) : s.Calm (s.expire now).1 := by
  unfold System.expire
  split
  · exact calm_setState _ _ (.of_eq rfl rfl)
  · exact .of_eq rfl rfl

/-- The progress of the state is no step. -/
theorem advance_calm (s : System K) (offset : K) : s.Calm (s.advance offset).1 := by
  unfold System.advance
  dsimp only
  split
  · exact .of_eq rfl rfl
  · split
    · exact calm_setState _ _ (.of_eq rfl rfl)
    · exact calm_setState _ _ (.of_eq rfl rfl)

omit [LinearOrder K] in
/-- A step takes every count back. -/
theorem restart_stepped (s : System K) :
    s.restart.1.loop = s.loop ∧ s.restart.1.sources.map (·.name) = s.sources.map (·.name) ∧
      s.restart.1.heard = 0 := by
  have hsources : s.restart.1.sources = s.sources.map SourceState.invalidate := by
    unfold System.restart
    exact setState_sources _ _
  refine ⟨(restart_spec s).2.1, ?_, ?_⟩
  · rw [hsources, List.map_map]
    rfl
  · unfold System.heard
    rw [hsources, List.map_map, List.sum_eq_zero]
    intro x hx
    obtain ⟨t, -, rfl⟩ := List.mem_map.mp hx
    rfl

variable [HasSqrt K]

/-- **What a loop update does to the counters**: it is no step, or it is the one step that
the loop granted. -/
theorem feed_steps (s : System K) (sel : Selection K) (sys : SourceState K) (now : K) :
    (stepOffsets (s.feed sel sys now).2.actions = [] ∧ s.Calm (s.feed sel sys now).1) ∨
    (stepOffsets (s.feed sel sys now).2.actions = [sel.offset] ∧
      s.loop.StepGranted sel.offset (s.mayStep sel.survivors sys) ∧
        s.Stepped (s.feed sel sys now).1) := by
  have hcfg :=
    update_cfg s.loop sel.offset sys.poll now (s.state = .synced) (s.mayStep sel.survivors sys)
  unfold System.feed
  dsimp only
  rcases update_cases s.loop sel.offset sys.poll now (s.state = .synced)
    (s.mayStep sel.survivors sys) with ⟨v, hv, heq⟩ | heq | ⟨l, heq, hupdates, hsteps⟩
  · left
    rw [heq]
    have hcalm := consume_calm s sys s.loop rfl rfl (le_refl _)
    rcases hv with rfl | rfl | rfl
    · exact ⟨rfl, hcalm⟩
    · exact ⟨rfl, calm_setState _ _ ⟨hcalm.cfg, hcalm.steps, hcalm.updates,
        hcalm.names, hcalm.heard⟩⟩
    · exact ⟨rfl, hcalm⟩
  · right
    rw [heq] at hcfg
    rw [heq]
    refine ⟨rfl, update_stepped heq, ?_⟩
    obtain ⟨hloop, hnames, hheard⟩ := restart_stepped { s.consume sys with loop := s.loop.step now }
    have hconsume := consume_calm s sys s.loop rfl rfl (le_refl _)
    exact ⟨(congrArg Loop.cfg hloop).trans hcfg, congrArg Loop.steps hloop,
      congrArg Loop.updates hloop, hnames.trans hconsume.names, hheard⟩
  · left
    rw [heq] at hcfg
    rw [heq]
    have hcalm := consume_calm s sys l hcfg hsteps (by omega)
    have hadvance := hcalm.trans (advance_calm { s.consume sys with loop := l } sel.offset)
    exact ⟨rfl, hadvance.cfg, hadvance.steps, hadvance.updates, hadvance.names, hadvance.heard⟩

/-- The loop is driven without a step, or by one that it was granted. -/
theorem drive_steps (s : System K) (sel : Selection K) (now : K) (sys : Option (SourceState K)) :
    (stepOffsets (s.drive sel now sys).2.actions = [] ∧ s.Calm (s.drive sel now sys).1) ∨
    ∃ t ∈ sys, stepOffsets (s.drive sel now sys).2.actions = [sel.offset] ∧
      s.loop.StepGranted sel.offset (s.mayStep sel.survivors t) ∧
        s.Stepped (s.drive sel now sys).1 := by
  cases sys with
  | none => exact .inl ⟨rfl, loseSystem_calm s now⟩
  | some sys =>
    unfold System.drive
    dsimp only
    split
    · have hidle := idle_calm { s with sysName := some sys.name }
      exact .inl ⟨rfl, hidle.cfg, hidle.steps, hidle.updates, hidle.names, hidle.heard⟩
    · rcases feed_steps { s with sysName := some sys.name } sel sys now with
        ⟨hnone, hcalm⟩ | ⟨hstep, hgranted, hstepped⟩
      · exact .inl ⟨hnone, hcalm.cfg, hcalm.steps, hcalm.updates, hcalm.names, hcalm.heard⟩
      · exact .inr ⟨sys, rfl, hstep, hgranted, hstepped.cfg, hstepped.steps, hstepped.updates,
          hstepped.names, hstepped.heard⟩

/-! ## The evidence behind a step -/

omit [Field K] [LinearOrder K] [HasSqrt K] in
theorem countP_le_sum (l : List ℕ) : l.countP (fun x => decide (1 ≤ x)) ≤ l.sum := by
  induction l with
  | nil => simp
  | cons x l ih =>
    rw [List.countP_cons, List.sum_cons]
    split
    case isTrue h =>
      have := of_decide_eq_true h
      omega
    case isFalse => omega

omit [HasSqrt K] in
/-- The examination keeps the counts. -/
theorem examined_heard (sources : List (SourceState K)) (now : K) (o : SelectOptions K) :
    (examinedSources sources now o).map (·.sinceStep) = sources.map (·.sinceStep) := by
  unfold examinedSources
  rw [List.map_map, List.map_map]
  exact List.map_congr_left fun s _ => examine_sinceStep s now o

/-- A selection leaves the counts alone. -/
theorem selectAt_heard {sources : List (SourceState K)} (h : Distinct sources) (now : K) (n : ℤ)
    (o : SelectOptions K) :
    (selectAt sources now n o).1.map (·.sinceStep) = sources.map (·.sinceStep) := by
  have hbare : ((selectAt sources now n o).1.map SourceState.bare).map (·.sinceStep)
      = ((examinedSources sources now o).map SourceState.bare).map (·.sinceStep) := by
    rw [bare_selectAt h]
  rw [List.map_map, List.map_map] at hbare
  exact hbare.trans (examined_heard sources now o)

/-- The survivors' counts are among those of the sources. -/
theorem survivors_heard {sources : List (SourceState K)} (h : Distinct sources) (now : K) (n : ℤ)
    (o : SelectOptions K) :
    ((selectAt sources now n o).2.survivors.map (·.sinceStep)).Subperm
    (sources.map (·.sinceStep)) := by
  have hbare : ((finalSurvivors sources now n o).map SourceState.bare).Subperm
      ((usableSources sources now o).map SourceState.bare) := by
    rw [bare_final h]
    refine List.Subperm.trans ?_ (bare_decided_subperm sources now o)
    rw [List.map_append]
    exact (List.sublist_append_right _ _).subperm
  rw [(selectAt_fields sources now n o).2.1]
  obtain ⟨k, hperm, hsub⟩ := hbare
  have hsub := hsub.map (·.sinceStep)
  have hperm := hperm.map (·.sinceStep)
  rw [List.map_map] at hsub hperm
  have husable :
      ((usableSources sources now o).map (·.sinceStep)).Sublist (sources.map (·.sinceStep)) := by
    rw [← examined_heard sources now o]
    exact (usable_sublist sources now o).map _
  exact ⟨_, hperm, hsub.trans husable⟩

/-- A further step rests on two measurements at least. -/
theorem heard_of_mayStep (h : Distinct s.sources) {now : K} {n : ℤ} {o : SelectOptions K}
    {sys : SourceState K} (hsys : (selectAt s.sources now n o).2.system = some sys) {t : System K}
    (hsteps : t.loop.steps = s.loop.steps)
    (hmay : t.mayStep (selectAt s.sources now n o).2.survivors sys = true) :
    s.loop.steps = 0 ∨ 2 ≤ s.heard := by
  obtain ⟨k, hperm, hsub⟩ := survivors_heard h now n o
  have hsum : ((selectAt s.sources now n o).2.survivors.map (·.sinceStep)).sum ≤ s.heard := by
    rw [← hperm.sum_eq]
    exact hsub.sum_le_sum fun _ _ => Nat.zero_le _
  unfold System.mayStep at hmay
  simp only [Bool.or_eq_true, decide_eq_true_eq] at hmay
  rcases hmay with (hfirst | hsystem) | hseveral
  · exact .inl (hsteps ▸ hfirst)
  · right
    have hmem : sys ∈ (selectAt s.sources now n o).2.survivors := by
      rw [(selectAt_fields s.sources now n o).2.2.1] at hsys
      rw [(selectAt_fields s.sources now n o).2.1]
      exact chosen_mem_final hsys
    have hone : sys.sinceStep ≤ ((selectAt s.sources now n o).2.survivors.map (·.sinceStep)).sum :=
      List.single_le_sum (fun _ _ => Nat.zero_le _) _ (List.mem_map_of_mem hmem)
    omega
  · right
    have hcount := countP_le_sum ((selectAt s.sources now n o).2.survivors.map (·.sinceStep))
    rw [List.countP_map] at hcount
    have heq : (selectAt s.sources now n o).2.survivors.countP (fun t => decide (1 ≤ t.sinceStep)) =
        (selectAt s.sources now n o).2.survivors.countP
        ((fun x => decide (1 ≤ x)) ∘ fun t => t.sinceStep) := rfl
    omega

/-- A step by `x` from this system is justified. -/
structure System.Justified (s : System K) (x : K) : Prop where
  allowed : s.loop.stepAllowed = true
  large : s.loop.cfg.panic < |x| ∨ s.loop.cfg.stepThreshold < |x|
  panic : s.loop.cfg.panic < |x| → s.loop.updates = 0 ∧ s.loop.cfg.panicAtStartup = true

/-- What a reselection selects: the sources in their new roles, and the selection. -/
def System.selects (s : System K) (now : K) : List (SourceState K) × Selection K :=
  selectAt s.sources now s.cfg.minSurvivors ⟨s.cfg.localRefIDs, s.loop.appliedSince⟩

/-- A reselection records its selection and drives the clock by it. -/
theorem reselect_eq (s : System K) (now : K) :
    (s.reselect now).1 =
    ((s.record (s.selects now).1 (s.selects now).2 now).drive (s.selects now).2 now
      (s.selects now).2.system).1 ∧
    (s.reselect now).2.actions =
    ((s.record (s.selects now).1 (s.selects now).2 now).drive (s.selects now).2 now
      (s.selects now).2.system).2.actions := by
  unfold System.reselect System.selects
  exact ⟨rfl, rfl⟩

/-- The outcome is recorded without a step. -/
theorem record_calm (h : Distinct s.sources) (now : K) :
    s.Calm (s.record (s.selects now).1 (s.selects now).2 now) := by
  refine ⟨rfl, rfl, le_refl _, ?_, selectAt_heard h now _ _⟩
  show (s.selects now).1.map (·.name) = _
  unfold System.selects
  rw [(selectAt_fields s.sources now _ _).1, writeBack_names, examined_names]

/-- **What a reselection does**: no step, or one that is justified and rests on the
evidence after an earlier one. -/
theorem reselect_steps (h : Distinct s.sources) (now : K) :
    (stepOffsets (s.reselect now).2.actions = [] ∧ s.Calm (s.reselect now).1) ∨
    ∃ x, stepOffsets (s.reselect now).2.actions = [x] ∧ s.Justified x ∧
      (s.loop.steps = 0 ∨ 2 ≤ s.heard) ∧ s.Stepped (s.reselect now).1 := by
  obtain ⟨hsystem, hactions⟩ := reselect_eq s now
  have hrecord := record_calm h now
  have hevidence : ∀ sys, (s.selects now).2.system = some sys →
      (s.record (s.selects now).1 (s.selects now).2 now).mayStep (s.selects now).2.survivors sys =
      true →
        s.loop.steps = 0 ∨ 2 ≤ s.heard :=
    fun sys hsys hmay => heard_of_mayStep h hsys rfl hmay
  rw [hsystem, hactions]
  have hloop : (s.record (s.selects now).1 (s.selects now).2 now).loop = s.loop := rfl
  generalize s.record (s.selects now).1 (s.selects now).2 now = t at hrecord hevidence hloop ⊢
  rcases drive_steps t (s.selects now).2 now (s.selects now).2.system with
    ⟨hnone, hcalm⟩ | ⟨sys, hsys, hstep, hgranted, hstepped⟩
  · exact .inl ⟨hnone, hrecord.trans hcalm⟩
  · right
    refine ⟨(s.selects now).2.offset, hstep, ?_, hevidence sys hsys hgranted.may, ?_⟩
    · rw [hloop] at hgranted
      exact ⟨hgranted.allowed, hgranted.large, hgranted.panic⟩
    · exact ⟨hstepped.cfg.trans hrecord.cfg, by rw [hstepped.steps, hrecord.steps],
        by rw [hstepped.updates, hloop], hstepped.names.trans hrecord.names, hstepped.heard⟩

/-! ## Operations and runs -/

omit [HasSqrt K] in
/-- A tick never steps. -/
theorem tick_stepOffsets (l : Loop K) (now : K) : stepOffsets (l.tick now).2 = [] := by
  unfold Loop.tick
  dsimp only
  split_ifs <;> rfl

/-- What an operation does that applies `n` valid measurements and steps by `xs`. -/
inductive System.Moves (s : System K) (n : ℕ) (xs : List K) (t : System K) : Prop where
  | calm (none : xs = []) (steps : t.loop.steps = s.loop.steps)
    (updates : s.loop.updates ≤ t.loop.updates)
      (heard : t.heard ≤ s.heard + n)
  | step (x : K) (one : xs = [x]) (justified : s.Justified x)
      (evidence : s.loop.steps = 0 ∨ 2 ≤ s.heard + n) (steps : t.loop.steps = s.loop.steps + 1)
      (updates : t.loop.updates = s.loop.updates + 1) (heard : t.heard = 0)

/-- An operation prepares the sources and then reselects. -/
theorem reselect_moves (s u : System K) (hloop : u.loop = s.loop) (hu : Distinct u.sources) {n : ℕ}
    (hheard : u.heard ≤ s.heard + n) (now : K) :
    Distinct (u.reselect now).1.sources ∧ (u.reselect now).1.loop.cfg = s.loop.cfg ∧
      s.Moves n (stepOffsets (u.reselect now).2.actions) (u.reselect now).1 := by
  rcases reselect_steps hu now with ⟨hnone, hcalm⟩ | ⟨x, hone, hjustified, hevidence, hstepped⟩
  · refine ⟨?_, hloop ▸ hcalm.cfg, .calm hnone (hloop ▸ hcalm.steps) (hloop ▸ hcalm.updates) ?_⟩
    · unfold Distinct
      rw [hcalm.names]
      exact hu
    · unfold System.heard
      rw [hcalm.heard]
      exact hheard
  · refine ⟨?_, hloop ▸ hstepped.cfg,
      .step x hone ?_ ?_ (hloop ▸ hstepped.steps) (hloop ▸ hstepped.updates) hstepped.heard⟩
    · unfold Distinct
      rw [hstepped.names]
      exact hu
    · exact ⟨hloop ▸ hjustified.allowed, hloop ▸ hjustified.large, hloop ▸ hjustified.panic⟩
    · rw [← hloop]
      omega

omit [Field K] [LinearOrder K] [HasSqrt K] in
/-- Replacing sources under their names keeps them distinct. -/
theorem Distinct.map {l : List (SourceState K)} (h : Distinct l) {f : SourceState K → SourceState K}
    (hf : ∀ t ∈ l, (f t).name = t.name) : Distinct (l.map f) := by
  unfold Distinct
  rw [List.map_map, List.map_congr_left (g := (·.name)) hf]
  exact h

omit [Field K] [LinearOrder K] [HasSqrt K] in
/-- A valid measurement counts once. -/
theorem apply_sinceStep (t : SourceState K) (m : Measurement K) :
    (t.apply m).name = t.name ∧ (t.apply m).sinceStep = t.sinceStep + m.valid.toNat := by
  have hleap : ∀ u : SourceState K, (u.applyLeap m).name = u.name ∧ (u.applyLeap m).sinceStep =
      u.sinceStep := by
    intro u
    unfold SourceState.applyLeap
    split_ifs <;> exact ⟨rfl, rfl⟩
  unfold SourceState.apply
  dsimp only
  by_cases hvalid : m.valid = true
  · rw [if_pos hvalid, hvalid]
    dsimp only
    rw [(hleap _).1, (hleap _).2]
    split <;> exact ⟨rfl, rfl⟩
  · rw [if_neg hvalid, (hleap _).1, (hleap _).2]
    rw [Bool.not_eq_true] at hvalid
    rw [hvalid]
    split <;> exact ⟨rfl, rfl⟩

omit [Field K] [LinearOrder K] [HasSqrt K] in
/-- Applying a measurement counts once, and only if it is valid. -/
theorem take_heard (h : Distinct s.sources) (m : Measurement K) :
    (s.take m).heard ≤ s.heard + m.valid.toNat := by
  have hother : ∀ l : List (SourceState K), m.source ∉ l.map (·.name) →
      (l.map fun t : SourceState K => if t.name = m.source then t.apply m else t) = l := by
    intro l hnot
    conv_rhs => rw [← List.map_id l]
    apply List.map_congr_left
    intro t ht
    refine if_neg fun hname => hnot ?_
    rw [← hname]
    exact List.mem_map_of_mem (f := (·.name)) ht
  have hsum : ∀ l : List (SourceState K), Distinct l →
      ((l.map fun t : SourceState K => if t.name = m.source then t.apply m else t).map
        (·.sinceStep)).sum ≤ (l.map (·.sinceStep)).sum + m.valid.toNat := by
    intro l
    induction l with
    | nil => simp
    | cons t l ih =>
      intro hl
      obtain ⟨hnot, hrest⟩ := List.nodup_cons.mp hl
      simp only [List.map_cons, List.sum_cons]
      by_cases hname : t.name = m.source
      · -- no later source has this name
        rw [if_pos hname, hother l (hname ▸ hnot), (apply_sinceStep t m).2]
        omega
      · have := ih hrest
        rw [if_neg hname]
        omega
  exact hsum s.sources h

omit [HasSqrt K] in
/-- An operation that leaves the loop alone and adds no count. -/
theorem System.Moves.rest (s t : System K) (hloop : t.loop = s.loop)
    (hheard : t.heard ≤ s.heard) (n : ℕ) : s.Moves n [] t :=
  .calm rfl (by rw [hloop]) (by rw [hloop]) (by omega)

omit [HasSqrt K] in
theorem System.Moves.congr {s t u : System K} {n : ℕ} {xs : List K} (h : s.Moves n xs t)
    (hsteps : u.loop.steps = t.loop.steps) (hupdates : u.loop.updates = t.loop.updates)
    (hheard : u.heard = t.heard) : s.Moves n xs u := by
  rcases h with ⟨hnone, hs, hu, hh⟩ | ⟨x, hone, hjustified, hevidence, hs, hu, hh⟩
  · exact .calm hnone (hsteps.trans hs) (by omega) (by omega)
  · exact .step x hone hjustified hevidence (hsteps.trans hs) (hupdates.trans hu) (hheard.trans hh)

omit [Field K] [LinearOrder K] [HasSqrt K] in
theorem registered_iff (s : System K) (name : Name) :
    s.registered name = true ↔ name ∈ s.sources.map (·.name) := by
  simp [System.registered]

omit [HasSqrt K] in
/-- A new source has delivered nothing. -/
theorem addSource_moves (h : Distinct s.sources) (name : Name) (o : Options) (n : ℕ) :
    Distinct (s.addSource name o).sources ∧ s.Moves n [] (s.addSource name o) := by
  unfold System.addSource
  split
  case isTrue =>
    constructor
    · refine h.map fun t _ => ?_
      split
      case isTrue hname => exact hname.symm
      case isFalse => rfl
    · refine .rest s _ ?_ ?_ n
      · rfl
      show (List.map _ (List.map _ _)).sum ≤ (List.map _ _).sum
      rw [List.map_map]
      apply List.sum_le_sum
      intro t _
      show (if _ then _ else _ : SourceState K).sinceStep ≤ t.sinceStep
      split
      case isTrue => exact Nat.zero_le _
      case isFalse => exact le_refl _
  case isFalse hnew =>
    rw [registered_iff] at hnew
    constructor
    · unfold Distinct
      rw [List.map_append, List.nodup_append]
      refine ⟨h, List.nodup_singleton _, ?_⟩
      rintro a ha b hb rfl
      have hname : a = name := by simpa [SourceState.fresh] using hb
      exact hnew (hname ▸ ha)
    · refine .rest s _ ?_ ?_ n
      · rfl
      show (List.map _ (_ ++ _)).sum ≤ (List.map _ _).sum
      simp [SourceState.fresh]

/-- **What an operation does.** -/
theorem apply_moves (h : Distinct s.sources) (op : Op K) :
    Distinct (s.apply op).1.sources ∧ (s.apply op).1.loop.cfg = s.loop.cfg ∧
      s.Moves (s.appliesValid op).toNat (s.stepsBy op) (s.apply op).1 := by
  have hinvalidate : Distinct (s.sources.map SourceState.invalidate) := h.map fun _ _ => rfl
  have hcleared : ((s.sources.map SourceState.invalidate).map (·.sinceStep)).sum ≤ s.heard := by
    rw [List.map_map]
    exact List.sum_le_sum fun t _ => Nat.zero_le _
  cases op with
  | addSource name o =>
    obtain ⟨hdistinct, hmoves⟩ := addSource_moves h name o 0
    refine ⟨hdistinct, ?_, hmoves⟩
    show (s.addSource name o).loop.cfg = s.loop.cfg
    unfold System.addSource
    split <;> rfl
  | removeSource name now =>
    show Distinct (s.removeSource name now).1.sources ∧ (s.removeSource name now).1.loop.cfg =
        s.loop.cfg ∧
      s.Moves 0 (stepOffsets (s.removeSource name now).2.actions) (s.removeSource name now).1
    have hfewer : (s.sources.filter (·.name ≠ name)).Sublist s.sources := List.filter_sublist
    unfold System.removeSource
    split
    · refine reselect_moves s { s with sources := s.sources.filter (·.name ≠ name) } rfl
        ((hfewer.map _).nodup h) ?_ now
      exact (hfewer.map (·.sinceStep)).sum_le_sum fun _ _ => Nat.zero_le _
    · exact ⟨h, rfl, .rest s s rfl (le_refl _) _⟩
  | update m =>
    show Distinct (s.update m).1.sources ∧ (s.update m).1.loop.cfg = s.loop.cfg ∧
      s.Moves (s.registered m.source && m.valid).toNat (stepOffsets (s.update m).2.actions)
      (s.update m).1
    unfold System.update
    split
    case isTrue hreg =>
      refine reselect_moves s (s.take m) rfl ?_ ?_ m.now
      · refine h.map fun t _ => ?_
        split
        · exact (apply_sinceStep t m).1
        · rfl
      · rw [hreg, Bool.true_and]
        exact take_heard h m
    case isFalse => exact ⟨h, rfl, .rest s s rfl (le_refl _) _⟩
  | tick now =>
    obtain ⟨hdistinct, hcfg, hmoves⟩ := reselect_moves s s (n := 0) rfl h (le_refl _) now
    have htick : (s.apply (.tick now)).1 =
        ({ (s.reselect now).1 with loop := ((s.reselect now).1.loop.tick now).1 }.expire
          now).1 := by
      unfold System.apply System.tick
      rfl
    have hsteps : s.stepsBy (.tick now) = stepOffsets (s.reselect now).2.actions := by
      unfold System.stepsBy System.apply System.tick
      dsimp only
      rw [stepOffsets_append, tick_stepOffsets, List.nil_append]
    rw [htick, hsteps]
    generalize (s.reselect now).1 = t at hdistinct hcfg hmoves ⊢
    -- after the reselection the tick issues a word, and holdover may end
    have hticked := expire_calm { t with loop := (t.loop.tick now).1 } now
    have hkept := (expire_spec { t with loop := (t.loop.tick now).1 } now).1
    have hcounts := tick_counts t.loop now
    generalize ({ t with loop := (t.loop.tick now).1 }.expire now).1 = u at hticked hkept ⊢
    refine ⟨?_, hticked.cfg.trans ((tick_cfg _ now).trans hcfg), hmoves.congr ?_ ?_ ?_⟩
    · unfold Distinct
      rw [hticked.names]
      exact hdistinct
    · exact hkept.steps.trans hcounts.2
    · exact hkept.updates.trans hcounts.1
    · exact congrArg List.sum hticked.heard
  | invalidateSources now =>
    exact reselect_moves s { s with sources := s.sources.map SourceState.invalidate } rfl
      hinvalidate hcleared now
  | resync now =>
    exact reselect_moves s { s with
      sources := s.sources.map SourceState.invalidate
      resyncing := decide (s.state = State.synced ∨ s.state = State.holdover) } rfl
        hinvalidate hcleared now

/-- The invariant of a run under the loop configuration `cfg`: every step has used up an
update, and the budget was not exceeded. -/
structure System.InBudget (cfg : LoopConfig K) (s : System K) : Prop where
  distinct : Distinct s.sources
  limit : 0 ≤ cfg.stepLimit → (s.loop.steps : ℤ) ≤ cfg.stepLimit
  steps : s.loop.steps ≤ s.loop.updates
  cfg : s.loop.cfg = cfg

variable {cfg : LoopConfig K}

/-- One operation stays in the budget. -/
theorem inBudget_apply (h : s.InBudget cfg) (op : Op K) :
    (s.apply op).1.InBudget cfg := by
  obtain ⟨hdistinct, hcfg, hmoves⟩ := apply_moves h.distinct op
  have hsteps := h.steps
  have hlimit := h.limit
  refine ⟨hdistinct, fun hnonneg => ?_, ?_, hcfg.trans h.cfg⟩
  · have hbefore := hlimit hnonneg
    rcases hmoves with ⟨-, hs, -, -⟩ | ⟨x, -, hjustified, -, hs, -, -⟩
    · omega
    · -- a step needs an update that is still inside the limit
      have hallowed := hjustified.allowed
      unfold Loop.stepAllowed at hallowed
      rw [h.cfg] at hallowed
      split_ifs at hallowed with hneg hzero
      · omega
      · have := of_decide_eq_true hallowed
        omega
  · rcases hmoves with ⟨-, hs, hu, -⟩ | ⟨x, -, -, -, hs, hu, -⟩
    · omega
    · omega

/-- A run stays in the budget. -/
theorem inBudget_applyAll (h : s.InBudget cfg) (ops : List (Op K)) :
    (s.applyAll ops).InBudget cfg := by
  induction ops generalizing s with
  | nil => exact h
  | cons op ops ih => exact ih (inBudget_apply h op)

/-- The steps of a run are those the loop counts. -/
theorem stepsAlong_length (h : s.InBudget cfg) (ops : List (Op K)) :
    s.loop.steps + (s.stepsAlong ops).length = (s.applyAll ops).loop.steps := by
  induction ops generalizing s with
  | nil => rfl
  | cons op ops ih =>
    have hrest := ih (inBudget_apply h op)
    have hall : s.applyAll (op :: ops) = (s.apply op).1.applyAll ops := rfl
    unfold System.stepsAlong
    rw [hall, ← hrest, List.length_append]
    rcases (apply_moves h.distinct op).2.2 with ⟨hnone, hs, -, -⟩ | ⟨x, hone, -, -, hs, -, -⟩
    · rw [hnone, hs, List.length_nil]
      omega
    · rw [hone, hs, List.length_singleton]
      omega

/-- Every step of a run is made by one of its operations. -/
theorem mem_stepsAlong {ops : List (Op K)} {x : K} (hx : x ∈ s.stepsAlong ops) :
    ∃ pre op post, ops = pre ++ op :: post ∧ x ∈ (s.applyAll pre).stepsBy op := by
  induction ops generalizing s with
  | nil => cases hx
  | cons op ops ih =>
    rcases List.mem_append.mp hx with hx | hx
    · exact ⟨[], op, ops, rfl, hx⟩
    · obtain ⟨pre, op', post, rfl, hstep⟩ := ih hx
      exact ⟨op :: pre, op', post, rfl, hstep⟩

/-- What the sources have counted has been applied since the run began, or they had
counted it before. -/
theorem heard_applyAll (h : s.InBudget cfg) (ops : List (Op K)) :
    (s.applyAll ops).heard ≤ s.heard + s.validAlong ops ∧ s.loop.steps ≤
    (s.applyAll ops).loop.steps := by
  induction ops generalizing s with
  | nil => exact ⟨le_refl _, le_refl _⟩
  | cons op ops ih =>
    obtain ⟨hheard, hsteps⟩ := ih (inBudget_apply h op)
    have hall : s.applyAll (op :: ops) = (s.apply op).1.applyAll ops := rfl
    unfold System.validAlong
    rw [hall]
    rcases (apply_moves h.distinct op).2.2 with ⟨-, hs, -, hh⟩ | ⟨x, -, -, -, hs, -, hh⟩
    · omega
    · omega

theorem validAlong_append (s : System K) (ops ops' : List (Op K)) :
    s.validAlong (ops ++ ops') = s.validAlong ops + (s.applyAll ops).validAlong ops' := by
  induction ops generalizing s with
  | nil => exact (Nat.zero_add _).symm
  | cons op ops ih =>
    show (s.appliesValid op).toNat + (s.apply op).1.validAlong (ops ++ ops') = _
    rw [ih]
    exact (Nat.add_assoc _ _ _).symm

theorem applyAll_append (s : System K) (ops ops' : List (Op K)) :
    s.applyAll (ops ++ ops') = (s.applyAll ops).applyAll ops' :=
  List.foldl_append

/-- **Step safety.** -/
theorem step_safety (cfg : Config K) (freq : K) (known : Bool)
    (hcfg : cfg.loop.stepThreshold ≤ cfg.loop.panic) (ops : List (Op K)) :
    (0 ≤ cfg.loop.stepLimit →
      (((System.new cfg freq known).stepsAlong ops).length : ℤ) ≤ cfg.loop.stepLimit) ∧
    (∀ x ∈ (System.new cfg freq known).stepsAlong ops, cfg.loop.stepThreshold < |x|) ∧
    (∀ pre op post, ops = pre ++ op :: post →
      ∀ x ∈ ((System.new cfg freq known).applyAll pre).stepsBy op, cfg.loop.panic < |x| →
        ((System.new cfg freq known).applyAll pre).loop.updates = 0 ∧
          cfg.loop.panicAtStartup = true) ∧
    (∀ pre op mid op' post, ops = pre ++ op :: mid ++ op' :: post →
      ((System.new cfg freq known).applyAll pre).stepsBy op ≠ [] →
      ((System.new cfg freq known).applyAll (pre ++ op :: mid)).stepsBy op' ≠ [] →
        2 ≤ ((System.new cfg freq known).applyAll (pre ++ [op])).validAlong (mid ++ [op'])) := by
  have hnew : (System.new cfg freq known).InBudget (System.new cfg freq known).loop.cfg :=
    ⟨List.nodup_nil, fun h => h, le_refl _, rfl⟩
  have hjustified : ∀ pre op x, x ∈ ((System.new cfg freq known).applyAll pre).stepsBy op →
      ((System.new cfg freq known).applyAll pre).Justified x := by
    intro pre op x hx
    rcases (apply_moves (inBudget_applyAll hnew pre).distinct op).2.2 with
      ⟨hnone, -⟩ | ⟨y, hone, hjustified, -⟩
    · rw [hnone] at hx
      cases hx
    · rw [hone, List.mem_singleton] at hx
      exact hx ▸ hjustified
  refine ⟨?_, ?_, ?_, ?_⟩
  · intro hnonneg
    have hlength := stepsAlong_length hnew ops
    have hlimit := (inBudget_applyAll hnew ops).limit hnonneg
    have hstart : (System.new cfg freq known).loop.steps = 0 := rfl
    have hsame : (System.new cfg freq known).loop.cfg.stepLimit = cfg.loop.stepLimit := rfl
    omega
  · intro x hx
    obtain ⟨pre, op, post, -, hx⟩ := mem_stepsAlong hx
    have hlarge := (hjustified pre op x hx).large
    rw [(inBudget_applyAll hnew pre).cfg] at hlarge
    rcases hlarge with hpanic | hthreshold
    · exact hcfg.trans_lt hpanic
    · exact hthreshold
  · intro pre op post _ x hx hbeyond
    have hpanic := (hjustified pre op x hx).panic
    rw [(inBudget_applyAll hnew pre).cfg] at hpanic
    exact hpanic hbeyond
  · intro pre op mid op' post _ hfirst hsecond
    have hpre := inBudget_applyAll hnew pre
    have happly : (System.new cfg freq known).applyAll (pre ++ [op])
        = (((System.new cfg freq known).applyAll pre).apply op).1 := by
      rw [applyAll_append]
      rfl
    have hmid : (System.new cfg freq known).applyAll (pre ++ op :: mid)
        = (((System.new cfg freq known).applyAll pre).apply op).1.applyAll mid := by
      rw [applyAll_append]
      rfl
    rw [happly, validAlong_append]
    rw [hmid] at hsecond
    have hbudget := inBudget_apply hpre op
    -- the first step leaves nothing counted, and the second needs two
    rcases (apply_moves hpre.distinct op).2.2 with ⟨hnone, -⟩ | ⟨x, -, -, -, hsteps, -, hcleared⟩
    · exact absurd hnone hfirst
    obtain ⟨hheard, hmore⟩ := heard_applyAll hbudget mid
    rcases (apply_moves (inBudget_applyAll hbudget mid).distinct op').2.2 with
      ⟨hnone, -⟩ | ⟨y, -, -, hevidence, -⟩
    · exact absurd hnone hsecond
    have hlast :
        ((((System.new cfg freq known).applyAll pre).apply op).1.applyAll mid).validAlong [op']
        = (((((System.new cfg freq known).applyAll pre).apply op).1.applyAll mid).appliesValid
          op').toNat := rfl
    rw [hlast]
    omega

/-- A source that is off by a second. -/
def farReport (t : ℚ) : Op ℚ := .update { report t .none with offset := 1 }

/-- The clock is stepped on the first report, and again only on the third. -/
def twoStepRun : List (Op ℚ) :=
  [.addSource gps ⟨false, false, true, false, false⟩, farReport 1, farReport 65, farReport 129]

theorem step_safety_twoStepRun :
    (System.new settlingConfig 0 false).stepsAlong twoStepRun = [1, 1] ∧
      2 ≤ ((System.new settlingConfig 0 false).applyAll
        ([.addSource gps ⟨false, false, true, false, false⟩] ++ [farReport 1])).validAlong
          ([farReport 65] ++ [farReport 129]) := by
  refine ⟨by decide +kernel,
    (step_safety settlingConfig 0 false (by decide +kernel) twoStepRun).2.2.2
      [.addSource gps ⟨false, false, true, false, false⟩] (farReport 1) [farReport 65]
      (farReport 129) [] rfl ?_ ?_⟩
  · decide +kernel
  · decide +kernel

end Carillon.Discipline
