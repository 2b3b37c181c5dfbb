/-
# The measurement queue and the life of a source

Every source runs on a goroutine of its own that sends into the bounded channel `meas`
and, when its `Run` returns, reports the stop and later the restart on the channel
`reqs` (`runSource`).  The engine goroutine takes from both; on a stop it empties the
queue of that source's measurements, receiving what was queued and putting the others
back (`sourceStopped`, `dropQueued` in `engine.go`).  The steps below are the single
channel operations, in any interleaving.

* A source's sends complete before its `Run` returns: a goroutine whose send still waits
  does not return.
* A goroutine that waits for room in `reqs` is one whose step has not been taken yet, so
  the waiting goroutines get their turn in any order.
* What the engine does with a measurement or a request is `Engine.call`.

`stopped_run_stays_silent`: once the stop of a run has been processed, nothing that the
run sent is applied any more.
-/
import Carillon.Engine.Epoch
import Carillon.Engine.Once
import Carillon.Lib.Channel

namespace Carillon

open Discipline (HasSqrt Measurement Name)
open Leap (Digest)

/-! ## The goroutines -/

/-- A measurement on its way, with the run of its source that sent it. -/
structure Sent (K : Type) where
  measurement : Measurement K
  run : ℕ

/-- The source that sent it. -/
def Sent.source {K : Type} (v : Sent K) : Name := v.measurement.source

/-- Where a source's goroutine is in `runSource`. -/
inductive RunPc where
  /-- In `Run`. -/
  | running
  /-- `Run` has returned and the stop is still to be reported. -/
  | returned
  /-- The stop has been reported; the goroutine waits for its timer and then reports the
  restart. -/
  | backoff
  deriving DecidableEq

/-- A source's goroutine: its place, and how many runs it has begun before this one. -/
structure SourceRun where
  pc : RunPc
  run : ℕ

/-- A lifecycle request on `reqs`. -/
inductive Request where
  | stopped (name : Name) (run : ℕ)
  | restarting (name : Name)

/-- Where the engine goroutine is: between calls, or inside the `dropQueued` of a stop. -/
inductive EnginePc (K : Type) where
  | idle
  /-- The first loop of `dropQueued`, with the number of receives to go. -/
  | draining (name : Name) (run left : ℕ) (keep : List (Sent K))
  /-- The second loop, with what is still to be put back. -/
  | refilling (name : Name) (run : ℕ) (keep : List (Sent K))

/-- What became of a measurement that the engine took off the queue for good. -/
inductive Fate where
  | applied
  | stale
  /-- Dropped by the `dropQueued` of this source. -/
  | discarded (name : Name)
  deriving DecidableEq

/-- The capacity of `reqs`. -/
def requestCapacity : ℕ := 16

/-- The engine, its queue and the goroutines of its sources.  The last four fields are
histories: what was sent, what was taken off the queue for good, what `dropQueued` could
not put back, and the runs whose stop has been processed. -/
structure Runner (K : Type) where
  engine : Engine K
  registered : List Name
  meas : Channel (Sent K) queueCapacity
  reqs : List Request
  pc : EnginePc K
  source : Name → SourceRun
  sent : List (Sent K)
  taken : List (Fate × Sent K)
  lost : List (Sent K)
  stopped : List (Name × ℕ)

/-- The atomic steps, with the readings of the calls. -/
inductive RunnerLabel (K : Type) where
  | send (m : Measurement K)
  | ret (name : Name)
  | reportStop (name : Name)
  | reportRestart (name : Name)
  | receive (mono : K) (cross : ℤ) (mono' : K) (r : Readings)
  | takeStop
  | takeRestart (mono : K) (wall snapshot : ℤ)
  | drain
  | putBack
  | finishStop (poll : ℤ) (mono : K) (r : Readings)
  | tick (mono : K) (cross : ℤ) (r : Readings)
  | leapRequest (record : Leap.Record) (activate : Bool) (mono : K) (cross check : ℤ)
      (mono' mono'' : K) (r : Readings)

variable {K : Type}

/-- The goroutine of a source is at a place; only the registered sources have one. -/
def Runner.At (s : Runner K) (name : Name) (pc : RunPc) : Prop :=
  name ∈ s.registered ∧ (s.source name).pc = pc

instance (s : Runner K) (name : Name) (pc : RunPc) : Decidable (s.At name pc) :=
  inferInstanceAs (Decidable (_ ∧ _))

/-- The goroutine of a source is in `Run` and none of its sends waits. -/
def Runner.Running (s : Runner K) (name : Name) : Prop :=
  s.At name .running ∧ ∀ w ∈ s.meas.waiting, w.source ≠ name

instance (s : Runner K) (name : Name) : Decidable (s.Running name) :=
  inferInstanceAs (Decidable (_ ∧ _))

/-- A source's goroutine goes on. -/
def Runner.setSource (s : Runner K) (name : Name) (g : SourceRun) : Runner K :=
  { s with source := Function.update s.source name g }

/-- A source's goroutine hands the engine a request and goes on. -/
def Runner.report (s : Runner K) (name : Name) (q : Request) (g : SourceRun) : Runner K :=
  { s.setSource name g with reqs := s.reqs ++ [q] }

/-- A measurement of the present run of its source. -/
def Runner.stamp (s : Runner K) (m : Measurement K) : Sent K := ⟨m, (s.source m.source).run⟩

/-- `out <- m`. -/
def Runner.send (s : Runner K) (m : Measurement K) : Runner K :=
  { s with meas := s.meas.send (s.stamp m), sent := s.sent ++ [s.stamp m] }

/-- One receive of `dropQueued`. -/
def Runner.drain (s : Runner K) (name : Name) (run left : ℕ) (keep : List (Sent K)) : Runner K :=
  match s.meas.recv with
  | none => { s with pc := .refilling name run keep }
  | some (v, meas) =>
    if v.source = name then
      { s with
        meas := meas
        pc := .draining name run left keep
        taken := s.taken ++ [(.discarded name, v)] }
    else { s with meas := meas, pc := .draining name run left (keep ++ [v]) }

/-- One send of `dropQueued`. -/
def Runner.putBack (s : Runner K) (name : Name) (run : ℕ) (v : Sent K) (keep : List (Sent K)) :
    Runner K :=
  match s.meas.trySend v with
  | some meas => { s with meas := meas, pc := .refilling name run keep }
  | none => { s with pc := .refilling name run keep, lost := s.lost ++ [v] }

variable [Field K] [LinearOrder K] [HasSqrt K] (sha256 : Bytes → Digest)

/-- What the engine makes of a measurement. -/
def Engine.fate (e : Engine K) (c : Call K) : Fate :=
  if (e.submit sha256 c).2.isSome then .applied else .stale

/-- One atomic step. -/
def Runner.step (s : Runner K) : RunnerLabel K → Option (Runner K)
  | .send m => if s.Running m.source then some (s.send m) else none
  | .ret name =>
    if s.Running name then some (s.setSource name ⟨.returned, (s.source name).run⟩) else none
  | .reportStop name =>
    if s.At name .returned ∧ s.reqs.length < requestCapacity then
      some (s.report name (.stopped name (s.source name).run) ⟨.backoff, (s.source name).run⟩)
    else none
  | .reportRestart name =>
    if s.At name .backoff ∧ s.reqs.length < requestCapacity then
      some (s.report name (.restarting name) ⟨.running, (s.source name).run + 1⟩)
    else none
  | .receive mono cross mono' r => match s.pc, s.meas.recv with
    | .idle, some (v, meas) =>
      let c := .measurement v.measurement mono cross mono' r
      (s.engine.call sha256 c).map fun e =>
        { s with engine := e, meas := meas, taken := s.taken ++ [(s.engine.fate sha256 c, v)] }
    | _, _ => none
  | .takeStop => match s.pc, s.reqs with
    | .idle, .stopped name run :: reqs =>
      if s.engine.alive then
        if name ∈ s.registered then
          some { s with reqs := reqs, pc := .draining name run s.meas.buf.length [] }
        else some { s with reqs := reqs, stopped := s.stopped ++ [(name, run)] }
      else none
    | _, _ => none
  | .takeRestart mono wall snapshot => match s.pc, s.reqs with
    | .idle, .restarting name :: reqs =>
      (s.engine.call sha256 (.sourceRestarting name mono wall snapshot)).map fun e =>
        { s with engine := e, reqs := reqs }
    | _, _ => none
  | .drain => match s.pc with
    | .draining name run (left + 1) keep => some (s.drain name run left keep)
    | .draining name run 0 keep => some { s with pc := .refilling name run keep }
    | _ => none
  | .putBack => match s.pc with
    | .refilling name run (v :: keep) => some (s.putBack name run v keep)
    | _ => none
  | .finishStop poll mono r => match s.pc with
    | .refilling name run [] =>
      (s.engine.call sha256 (.sourceStopped name poll mono r)).map fun e =>
        { s with engine := e, pc := .idle, stopped := s.stopped ++ [(name, run)] }
    | _ => none
  | .tick mono cross r => match s.pc with
    | .idle => (s.engine.call sha256 (.tick mono cross r)).map fun e => { s with engine := e }
    | _ => none
  | .leapRequest record activate mono cross check mono' mono'' r => match s.pc with
    | .idle =>
      (s.engine.call sha256 (.leapRequest record activate mono cross check mono' mono'' r)).map
        fun e => { s with engine := e }
    | _ => none

omit [Field K] [LinearOrder K] [HasSqrt K] in
/-- The daemon when `Run` has started its sources. -/
def Runner.new (e : Engine K) : Runner K where
  engine := e
  registered := e.cfg.sources.map (·.1)
  meas := .empty
  reqs := []
  pc := .idle
  source _ := ⟨.running, 0⟩
  sent := []
  taken := []
  lost := []
  stopped := []

/-! ## What a step can do -/

omit [Field K] [LinearOrder K] [HasSqrt K] in
/-- What a step does to the queue and the goroutines; what the engine makes of a call is
left open. -/
inductive Runner.Moves (s : Runner K) : RunnerLabel K → Runner K → Prop
  | send {m : Measurement K} (hrun : s.Running m.source) : Moves s (.send m) (s.send m)
  | ret {name : Name} (hrun : s.Running name) :
      Moves s (.ret name) (s.setSource name ⟨.returned, (s.source name).run⟩)
  | reportStop {name : Name} (hat : s.At name .returned) :
      Moves s (.reportStop name)
        (s.report name (.stopped name (s.source name).run) ⟨.backoff, (s.source name).run⟩)
  | reportRestart {name : Name} (hat : s.At name .backoff) :
      Moves s (.reportRestart name)
        (s.report name (.restarting name) ⟨.running, (s.source name).run + 1⟩)
  | receive {l : RunnerLabel K} {v : Sent K} {meas : Channel (Sent K) queueCapacity}
      (e : Engine K) (fate : Fate) (hpc : s.pc = .idle) (hrecv : s.meas.recv = some (v, meas))
      (hfate : ∀ name, fate ≠ .discarded name) :
      Moves s l { s with engine := e, meas := meas, taken := s.taken ++ [(fate, v)] }
  | takeStop {name : Name} {run : ℕ} {reqs : List Request} (hpc : s.pc = .idle)
      (hreqs : s.reqs = .stopped name run :: reqs) (hname : name ∈ s.registered) :
      Moves s .takeStop { s with reqs := reqs, pc := .draining name run s.meas.buf.length [] }
  | skipStop {name : Name} {run : ℕ} {reqs : List Request} (hpc : s.pc = .idle)
      (hreqs : s.reqs = .stopped name run :: reqs) (hname : name ∉ s.registered) :
      Moves s .takeStop { s with reqs := reqs, stopped := s.stopped ++ [(name, run)] }
  | drain {name : Name} {run left : ℕ} {keep : List (Sent K)}
      (hpc : s.pc = .draining name run (left + 1) keep) :
      Moves s .drain (s.drain name run left keep)
  | drained {name : Name} {run : ℕ} {keep : List (Sent K)}
      (hpc : s.pc = .draining name run 0 keep) :
      Moves s .drain { s with pc := .refilling name run keep }
  | putBack {name : Name} {run : ℕ} {v : Sent K} {keep : List (Sent K)}
      (hpc : s.pc = .refilling name run (v :: keep)) :
      Moves s .putBack (s.putBack name run v keep)
  | finishStop {l : RunnerLabel K} {name : Name} {run : ℕ} (e : Engine K)
      (hpc : s.pc = .refilling name run []) :
      Moves s l { s with engine := e, pc := .idle, stopped := s.stopped ++ [(name, run)] }
  | quiet {l : RunnerLabel K} {reqs : List Request} (e : Engine K) (hpc : s.pc = .idle)
      (hreqs : reqs ⊆ s.reqs) : Moves s l { s with engine := e, reqs := reqs }

theorem Engine.fate_ne_discarded (e : Engine K) (c : Call K) (name : Name) :
    e.fate sha256 c ≠ .discarded name := by
  unfold Engine.fate
  split <;> simp

variable {l : RunnerLabel K}

/-- Every step is one of the moves. -/
theorem step_moves {s t : Runner K} (h : s.step sha256 l = some t) :
    s.Moves l t := by
  cases l with
  | send m =>
    obtain ⟨hrun, h⟩ := Option.ite_none_right_eq_some.mp h
    exact Option.some.inj h ▸ .send hrun
  | ret name =>
    obtain ⟨hrun, h⟩ := Option.ite_none_right_eq_some.mp h
    exact Option.some.inj h ▸ .ret hrun
  | reportStop name =>
    obtain ⟨⟨hat, -⟩, h⟩ := Option.ite_none_right_eq_some.mp h
    exact Option.some.inj h ▸ .reportStop hat
  | reportRestart name =>
    obtain ⟨⟨hat, -⟩, h⟩ := Option.ite_none_right_eq_some.mp h
    exact Option.some.inj h ▸ .reportRestart hat
  | receive mono cross mono' r =>
    simp only [Runner.step] at h
    split at h
    · next v meas hpc hrecv =>
      obtain ⟨e, -, rfl⟩ := Option.map_eq_some_iff.mp h
      exact .receive e _ hpc hrecv (s.engine.fate_ne_discarded sha256 _)
    · cases h
  | takeStop =>
    simp only [Runner.step] at h
    split at h
    · next name run reqs hpc hreqs =>
      obtain ⟨-, h⟩ := Option.ite_none_right_eq_some.mp h
      split at h
      · next hname =>
        obtain rfl := Option.some.inj h
        exact .takeStop hpc hreqs hname
      · next hname =>
        obtain rfl := Option.some.inj h
        exact .skipStop hpc hreqs hname
    · cases h
  | takeRestart mono wall snapshot =>
    simp only [Runner.step] at h
    split at h
    · next name reqs hpc hreqs =>
      obtain ⟨e, -, rfl⟩ := Option.map_eq_some_iff.mp h
      exact .quiet e hpc (hreqs ▸ List.subset_cons_self _ _)
    · cases h
  | drain =>
    simp only [Runner.step] at h
    split at h
    · next hpc => exact Option.some.inj h ▸ .drain hpc
    · next hpc => exact Option.some.inj h ▸ .drained hpc
    · cases h
  | putBack =>
    simp only [Runner.step] at h
    split at h
    · next hpc => exact Option.some.inj h ▸ .putBack hpc
    · cases h
  | finishStop poll mono r =>
    simp only [Runner.step] at h
    split at h
    · next hpc =>
      obtain ⟨e, -, rfl⟩ := Option.map_eq_some_iff.mp h
      exact .finishStop e hpc
    · cases h
  | tick mono cross r =>
    simp only [Runner.step] at h
    split at h
    · next hpc =>
      obtain ⟨e, -, rfl⟩ := Option.map_eq_some_iff.mp h
      exact .quiet e hpc (List.Subset.refl _)
    · cases h
  | leapRequest record activate mono cross check mono' mono'' r =>
    simp only [Runner.step] at h
    split at h
    · next hpc =>
      obtain ⟨e, -, rfl⟩ := Option.map_eq_some_iff.mp h
      exact .quiet e hpc (List.Subset.refl _)
    · cases h

/-! ## Runs that are over -/

section

omit [Field K] [LinearOrder K] [HasSqrt K]

/-- A run of a source has returned. -/
def Runner.Ended (s : Runner K) (name : Name) (run : ℕ) : Prop :=
  run < (s.source name).run ∨ run = (s.source name).run ∧ (s.source name).pc ≠ .running

/-- A measurement of a run that has not returned. -/
def Runner.Current (s : Runner K) (v : Sent K) : Prop :=
  (s.source v.source).pc = .running ∧ v.run = (s.source v.source).run

variable {s : Runner K}

theorem Runner.Current.not_ended {v : Sent K} (h : s.Current v) :
    ¬ s.Ended v.source v.run := by
  rintro (hlt | ⟨-, hpc⟩)
  · exact hlt.ne h.2
  · exact hpc h.1

/-- What a goroutine sends is of its present run. -/
theorem current_stamp {m : Measurement K} (h : s.Running m.source) :
    s.Current (s.stamp m) := ⟨h.1.2, rfl⟩

@[simp] theorem setSource_self (s : Runner K) (name : Name) (g : SourceRun) :
    (s.setSource name g).source name = g := Function.update_self ..

theorem setSource_of_ne (s : Runner K) {name other : Name} (g : SourceRun) (h : other ≠ name) :
    (s.setSource name g).source other = s.source other := Function.update_of_ne h ..

/-- The goroutine of a source only goes forward. -/
theorem ended_setSource {name other : Name} {g : SourceRun} {run : ℕ}
    (hforward : (s.source name).run < g.run ∨ (s.source name).run = g.run ∧ g.pc ≠ .running)
    (h : s.Ended other run) : (s.setSource name g).Ended other run := by
  by_cases heq : other = name
  · subst heq
    unfold Runner.Ended at h ⊢
    rw [setSource_self]
    rcases h with h | ⟨h, -⟩ <;> rcases hforward with hf | ⟨hf, hpc⟩
    · exact .inl (h.trans hf)
    · exact .inl (hf ▸ h)
    · exact .inl (h ▸ hf)
    · exact .inr ⟨h.trans hf, hpc⟩
  · unfold Runner.Ended
    rwa [setSource_of_ne s g heq]

variable {name : Name}

/-- A measurement of another source is of the run it was of. -/
theorem current_setSource {g : SourceRun} {v : Sent K} (hne : v.source ≠ name) (h : s.Current v) :
    (s.setSource name g).Current v := by
  unfold Runner.Current
  rwa [setSource_of_ne s g hne]

/-- The run whose measurements `dropQueued` is removing. -/
def EnginePc.purges : EnginePc K → Option (Name × ℕ)
  | .idle => none
  | .draining name run _ _ | .refilling name run _ => some (name, run)

/-- What has been taken off the queue and is to be put back. -/
def EnginePc.keep : EnginePc K → List (Sent K)
  | .idle => []
  | .draining _ _ _ keep | .refilling _ _ keep => keep

/-- How many measurements are still to be taken off the queue. -/
def EnginePc.left : EnginePc K → ℕ
  | .draining _ _ left _ => left
  | .idle | .refilling _ _ _ => 0

/-- **The invariant.**  Only goroutines in `Run` wait to send, the reported stops are of
runs that have returned, and no measurement of a run whose stop has been processed is in
the queue or will be put back.  While `dropQueued` runs, what is left of the stopped run
is in the part of the queue that is still to be received. -/
structure Runner.Silenced (s : Runner K) : Prop where
  waiting : ∀ w ∈ s.meas.waiting, s.Current w
  reqs : ∀ name run, .stopped name run ∈ s.reqs → name ∈ s.registered ∧ s.Ended name run
  stopped : ∀ name run, (name, run) ∈ s.stopped → s.Ended name run
  queued : ∀ v ∈ s.meas.contents, (v.source, v.run) ∉ s.stopped
  keep : ∀ v ∈ s.pc.keep, (v.source, v.run) ∉ s.stopped
  purged : ∀ name run, s.pc.purges = some (name, run) → s.Ended name run ∧
    (∀ v ∈ s.pc.keep, v.source ≠ name) ∧
    ∀ v ∈ s.meas.contents.drop s.pc.left, v.source = name → v.run ≠ run

theorem silenced_new (e : Engine K) : (Runner.new e).Silenced where
  waiting := by simp [Runner.new, Channel.empty]
  reqs := by simp [Runner.new]
  stopped := by simp [Runner.new]
  queued := by simp [Runner.new]
  keep := by simp [Runner.new, EnginePc.keep]
  purged := by simp [Runner.new, EnginePc.purges]

/-- A send adds a measurement of a run that has not returned. -/
theorem silenced_send {m : Measurement K} (h : s.Silenced) (hrun : s.Running m.source) :
    (s.send m).Silenced := by
  have hcurrent := current_stamp hrun
  refine ⟨?_, h.reqs, h.stopped, ?_, h.keep, ?_⟩
  · intro w hw
    rw [Runner.send, Channel.waiting_send] at hw
    split at hw
    · exact h.waiting w hw
    · rcases List.mem_append.mp hw with hw | hw
      · exact h.waiting w hw
      · obtain rfl := List.mem_singleton.mp hw
        exact hcurrent
  · intro v hv hstopped
    rw [Runner.send, Channel.contents_send] at hv
    rcases List.mem_append.mp hv with hv | hv
    · exact h.queued v hv hstopped
    · obtain rfl := List.mem_singleton.mp hv
      exact hcurrent.not_ended (h.stopped _ _ hstopped)
  · intro name run hpurges
    obtain ⟨hended, hkeep, hrest⟩ := h.purged name run hpurges
    refine ⟨hended, hkeep, fun v hv hsource hrunv => ?_⟩
    rw [Runner.send, Channel.contents_send, List.drop_append] at hv
    rcases List.mem_append.mp hv with hv | hv
    · exact hrest v hv hsource hrunv
    · obtain rfl := List.mem_singleton.mp (List.mem_of_mem_drop hv)
      exact hcurrent.not_ended (hsource ▸ hrunv ▸ hended)

/-- A goroutine with no waiting send goes forward. -/
theorem silenced_setSource {g : SourceRun} (h : s.Silenced)
    (hforward : (s.source name).run < g.run ∨ (s.source name).run = g.run ∧ g.pc ≠ .running)
    (hwaiting : ∀ w ∈ s.meas.waiting, w.source ≠ name) : (s.setSource name g).Silenced where
  waiting w hw := current_setSource (hwaiting w hw) (h.waiting w hw)
  reqs other run hmem :=
    ⟨(h.reqs other run hmem).1, ended_setSource hforward (h.reqs other run hmem).2⟩
  stopped other run hmem := ended_setSource hforward (h.stopped other run hmem)
  queued := h.queued
  keep := h.keep
  purged other run hpurges :=
    ⟨ended_setSource hforward (h.purged other run hpurges).1, (h.purged other run hpurges).2⟩

/-- A goroutine that is not in `Run` has no waiting send. -/
theorem waiting_of_pc_ne (h : s.Silenced) (hpc : (s.source name).pc ≠ .running) :
    ∀ w ∈ s.meas.waiting, w.source ≠ name := by
  rintro w hw rfl
  exact hpc (h.waiting w hw).1

/-- A goroutine reports what is true of its runs. -/
theorem silenced_report {q : Request} {g : SourceRun}
    (h : (s.setSource name g).Silenced)
    (hq : ∀ other run, q = .stopped other run →
      other ∈ s.registered ∧ (s.setSource name g).Ended other run) :
    (s.report name q g).Silenced where
  waiting := h.waiting
  reqs other run hmem := by
    rcases List.mem_append.mp hmem with hmem | hmem
    · exact h.reqs other run hmem
    · exact hq other run (List.mem_singleton.mp hmem).symm
  stopped := h.stopped
  queued := h.queued
  keep := h.keep
  purged := h.purged

/-- A receive of the main loop leaves the rest of the queue as it was. -/
theorem silenced_receive {v : Sent K} {meas : Channel (Sent K) queueCapacity} (e : Engine K)
    (fate : Fate) (h : s.Silenced) (hpc : s.pc = .idle) (hrecv : s.meas.recv = some (v, meas)) :
    { s with engine := e, meas := meas, taken := s.taken ++ [(fate, v)] }.Silenced where
  waiting w hw := by
    rw [Channel.waiting_recv hrecv] at hw
    exact h.waiting w (List.mem_of_mem_tail hw)
  reqs := h.reqs
  stopped := h.stopped
  queued u hu := h.queued u (Channel.contents_recv hrecv ▸ List.mem_cons_of_mem v hu)
  keep := h.keep
  purged name run hpurges := by
    rw [show EnginePc.purges s.pc = none from hpc ▸ rfl] at hpurges
    cases hpurges

/-- When the drain begins, everything the stopped run has sent is buffered: the sends
that still wait are of runs that have not returned. -/
theorem silenced_takeStop {run : ℕ} {reqs : List Request} (h : s.Silenced)
    (hreqs : s.reqs = .stopped name run :: reqs) :
    { s with reqs := reqs, pc := .draining name run s.meas.buf.length [] }.Silenced where
  waiting := h.waiting
  reqs other run' hmem := h.reqs other run' (hreqs ▸ List.mem_cons_of_mem _ hmem)
  stopped := h.stopped
  queued := h.queued
  keep := by simp [EnginePc.keep]
  purged := by
    rintro _ _ ⟨⟩
    have hended := (h.reqs name run (hreqs ▸ List.mem_cons_self)).2
    refine ⟨hended, by simp [EnginePc.keep], fun w hw hsource hrun => ?_⟩
    rw [EnginePc.left, Channel.drop_contents] at hw
    exact (h.waiting w hw).not_ended (hsource ▸ hrun ▸ hended)

/-- A receive of `dropQueued` shortens the part that may hold the stopped run. -/
theorem silenced_drain {run left : ℕ} {keep : List (Sent K)} (h : s.Silenced)
    (hpc : s.pc = .draining name run (left + 1) keep) :
    (s.drain name run left keep).Silenced := by
  have hkeep := h.keep
  obtain ⟨hended, hother, hrest⟩ := h.purged name run (hpc ▸ rfl)
  simp only [hpc, EnginePc.keep, EnginePc.left] at hkeep hother hrest
  unfold Runner.drain
  split
  · next hnone =>
    refine ⟨h.waiting, h.reqs, h.stopped, h.queued, hkeep, ?_⟩
    rintro _ _ ⟨⟩
    refine ⟨hended, hother, fun v hv => ?_⟩
    rw [Channel.recv_eq_none.mp hnone] at hv
    cases List.mem_of_mem_drop hv
  · next v meas hrecv =>
    have hcontents := Channel.contents_recv hrecv
    have hwaiting : ∀ w ∈ meas.waiting, s.Current w := fun w hw =>
      h.waiting w (List.mem_of_mem_tail (Channel.waiting_recv hrecv ▸ hw))
    have hqueued : ∀ u ∈ meas.contents, (u.source, u.run) ∉ s.stopped := fun u hu =>
      h.queued u (hcontents ▸ List.mem_cons_of_mem v hu)
    rw [hcontents, List.drop_succ_cons] at hrest
    split
    · refine ⟨hwaiting, h.reqs, h.stopped, hqueued, hkeep, ?_⟩
      rintro _ _ ⟨⟩
      exact ⟨hended, hother, hrest⟩
    · next hsource =>
      refine ⟨hwaiting, h.reqs, h.stopped, hqueued, ?_, ?_⟩
      · intro u hu
        rcases List.mem_append.mp hu with hu | hu
        · exact hkeep u hu
        · obtain rfl := List.mem_singleton.mp hu
          exact h.queued u (hcontents ▸ List.mem_cons_self)
      · rintro _ _ ⟨⟩
        refine ⟨hended, fun u hu => ?_, hrest⟩
        rcases List.mem_append.mp hu with hu | hu
        · exact hother u hu
        · obtain rfl := List.mem_singleton.mp hu
          exact hsource

/-- After the last receive nothing of the stopped run is left. -/
theorem silenced_drained {run : ℕ} {keep : List (Sent K)} (h : s.Silenced)
    (hpc : s.pc = .draining name run 0 keep) :
    { s with pc := .refilling name run keep }.Silenced where
  waiting := h.waiting
  reqs := h.reqs
  stopped := h.stopped
  queued := h.queued
  keep := by
    have hkeep := h.keep
    rw [hpc] at hkeep
    exact hkeep
  purged := by
    have hpurged := h.purged
    rw [hpc] at hpurged
    exact hpurged

/-- What is put back was of another source. -/
theorem silenced_putBack {run : ℕ} {v : Sent K} {keep : List (Sent K)} (h : s.Silenced)
    (hpc : s.pc = .refilling name run (v :: keep)) :
    (s.putBack name run v keep).Silenced := by
  have hkeep := h.keep
  obtain ⟨hended, hother, hrest⟩ := h.purged name run (hpc ▸ rfl)
  simp only [hpc, EnginePc.keep, EnginePc.left, List.drop_zero, List.forall_mem_cons]
    at hkeep hother hrest
  unfold Runner.putBack
  split
  · next meas hsend =>
    obtain ⟨hroom, rfl⟩ := Channel.trySend_eq_some.mp hsend
    refine ⟨?_, h.reqs, h.stopped, ?_, hkeep.2, ?_⟩
    · simp only [Channel.waiting_send, if_pos hroom]
      exact h.waiting
    · simp only [Channel.contents_send, List.forall_mem_append, List.forall_mem_singleton]
      exact ⟨h.queued, hkeep.1⟩
    · rintro _ _ ⟨⟩
      refine ⟨hended, hother.2, ?_⟩
      simp only [Channel.contents_send, EnginePc.left, List.drop_zero, List.forall_mem_append,
        List.forall_mem_singleton]
      exact ⟨hrest, fun hsource => absurd hsource hother.1⟩
  · refine ⟨h.waiting, h.reqs, h.stopped, h.queued, hkeep.2, ?_⟩
    rintro _ _ ⟨⟩
    exact ⟨hended, hother.2, hrest⟩

/-- When the stop has been processed, the queue holds nothing of the run. -/
theorem silenced_finishStop {run : ℕ} (e : Engine K) (h : s.Silenced)
    (hpc : s.pc = .refilling name run []) :
    { s with engine := e, pc := .idle, stopped := s.stopped ++ [(name, run)] }.Silenced := by
  obtain ⟨hended, -, hrest⟩ := h.purged name run (hpc ▸ rfl)
  simp only [hpc, EnginePc.left, List.drop_zero] at hrest
  refine ⟨h.waiting, h.reqs, ?_, ?_, by simp [EnginePc.keep], by simp [EnginePc.purges]⟩
  · intro other run' hmem
    rcases List.mem_append.mp hmem with hmem | hmem
    · exact h.stopped other run' hmem
    · obtain ⟨rfl, rfl⟩ := Prod.mk.inj (List.mem_singleton.mp hmem)
      exact hended
  · intro v hv hmem
    rcases List.mem_append.mp hmem with hmem | hmem
    · exact h.queued v hv hmem
    · obtain ⟨hsource, hrun⟩ := Prod.mk.inj (List.mem_singleton.mp hmem)
      exact hrest v hv hsource hrun

/-- Every step keeps the invariant. -/
theorem silenced_moves {s t : Runner K} (h : s.Silenced) (hmove : s.Moves l t) :
    t.Silenced := by
  cases hmove with
  | send hrun => exact silenced_send h hrun
  | ret hrun => exact silenced_setSource h (.inr ⟨rfl, by simp⟩) hrun.2
  | @reportStop name hat =>
    have hends : (s.setSource name ⟨.backoff, (s.source name).run⟩).Ended name
        (s.source name).run := by
      right
      simp
    refine silenced_report (silenced_setSource h (.inr ⟨rfl, by simp⟩)
      (waiting_of_pc_ne h (by simp [hat.2]))) ?_
    rintro _ _ ⟨⟩
    exact ⟨hat.1, hends⟩
  | reportRestart hat =>
    refine silenced_report (silenced_setSource h (.inl (Nat.lt_succ_self _))
      (waiting_of_pc_ne h (by simp [hat.2]))) ?_
    rintro _ _ ⟨⟩
  | receive e fate hpc hrecv _ => exact silenced_receive e fate h hpc hrecv
  | takeStop hpc hreqs _ => exact silenced_takeStop h hreqs
  | @skipStop name run reqs hpc hreqs hname =>
    -- only registered sources report stops
    exact absurd (h.reqs name run (hreqs ▸ List.mem_cons_self)).1 hname
  | drain hpc => exact silenced_drain h hpc
  | drained hpc => exact silenced_drained h hpc
  | putBack hpc => exact silenced_putBack h hpc
  | finishStop e hpc => exact silenced_finishStop e h hpc
  | quiet e hpc hreqs =>
    exact ⟨h.waiting, fun name run hmem => h.reqs name run (hreqs hmem), h.stopped, h.queued,
      h.keep, h.purged⟩

/-! ## What the engine takes -/

/-- The measurements that the engine has applied, in their order. -/
def Runner.applied (s : Runner K) : List (Sent K) :=
  s.taken.filterMap fun x => if x.1 = .applied then some x.2 else none

/-- A step takes off the queue only what was in it. -/
theorem taken_moves {s t : Runner K} (hmove : s.Moves l t) :
    ∃ new, t.taken = s.taken ++ new ∧ ∀ x ∈ new, x.2 ∈ s.meas.contents := by
  have hhead {v : Sent K} {meas : Channel (Sent K) queueCapacity}
      (hrecv : s.meas.recv = some (v, meas)) : v ∈ s.meas.contents :=
    Channel.contents_recv hrecv ▸ List.mem_cons_self
  cases hmove with
  | @receive l v meas e fate hpc hrecv _ => exact ⟨[(fate, v)], rfl, by simpa using hhead hrecv⟩
  | @drain name run left keep hpc =>
    unfold Runner.drain
    split
    · exact ⟨[], by simp⟩
    · next v meas hrecv =>
      split
      · exact ⟨[(.discarded name, v)], rfl, by simpa using hhead hrecv⟩
      · exact ⟨[], by simp⟩
  | putBack hpc =>
    unfold Runner.putBack
    split <;> exact ⟨[], by simp⟩
  | _ => exact ⟨[], (List.append_nil _).symm, by simp⟩

/-- A processed stop stays processed. -/
theorem stopped_moves {s t : Runner K} (hmove : s.Moves l t) :
    s.stopped ⊆ t.stopped := by
  cases hmove with
  | finishStop e hpc => exact List.subset_append_left _ _
  | skipStop hpc hreqs hname => exact List.subset_append_left _ _
  | drain hpc =>
    unfold Runner.drain
    split
    · exact List.Subset.refl _
    · split <;> exact List.Subset.refl _
  | putBack hpc =>
    unfold Runner.putBack
    split <;> exact List.Subset.refl _
  | _ => exact List.Subset.refl _

end

/-- What a run takes off the queue is of no run whose stop had been processed when it
began. -/
theorem taken_run {s t : Runner K} {ls : List (RunnerLabel K)} (h : s.Silenced)
    (hrun : Runs.run (Runner.step sha256) s ls = some t) :
    ∃ new, t.taken = s.taken ++ new ∧ ∀ x ∈ new, (x.2.source, x.2.run) ∉ s.stopped := by
  induction ls generalizing s with
  | nil =>
    obtain rfl := Option.some.inj hrun
    exact ⟨[], by simp⟩
  | cons l ls ih =>
    obtain ⟨u, hu, hrun⟩ := Runs.run_cons_eq_some.mp hrun
    have hmove := step_moves sha256 hu
    obtain ⟨first, hfirst, hqueued⟩ := taken_moves hmove
    obtain ⟨rest, hrest, hsilent⟩ := ih (silenced_moves h hmove) hrun
    refine ⟨first ++ rest, by rw [hrest, hfirst, List.append_assoc], fun x hx => ?_⟩
    rcases List.mem_append.mp hx with hx | hx
    · exact h.queued x.2 (hqueued x hx)
    · exact fun hstopped => hsilent x hx (stopped_moves hmove hstopped)

/-- The invariant holds along every run. -/
theorem silenced_run {s t : Runner K} {ls : List (RunnerLabel K)} (h : s.Silenced)
    (hrun : Runs.run (Runner.step sha256) s ls = some t) : t.Silenced :=
  Runs.run_invariant (C := fun _ _ => True)
    (fun _ _ _ hinv _ hstep => silenced_moves hinv (step_moves sha256 hstep)) h
    (Runs.along_of_forall (fun _ _ => trivial) s ls) hrun

/-- A processed stop stays processed along a run. -/
theorem stopped_run {s t : Runner K} {ls : List (RunnerLabel K)}
    (hrun : Runs.run (Runner.step sha256) s ls = some t) : s.stopped ⊆ t.stopped :=
  Runs.run_invariant (C := fun _ _ => True) (I := fun u => s.stopped ⊆ u.stopped)
    (fun _ _ _ hinv _ hstep => List.Subset.trans hinv (stopped_moves (step_moves sha256 hstep)))
    (List.Subset.refl _) (Runs.along_of_forall (fun _ _ => trivial) s ls) hrun

/-- **No revival.**  Whatever the sources send, however their goroutines, the stops, the
restarts and the engine's calls interleave: once the stop of a run has been processed, no
measurement that the run sent is applied, and none is in the queue. -/
theorem stopped_run_stays_silent (e : Engine K) (before after : List (RunnerLabel K))
    (s t : Runner K) (hs : Runs.run (Runner.step sha256) (.new e) before = some s)
    (ht : Runs.run (Runner.step sha256) s after = some t) :
    (∃ new, t.applied = s.applied ++ new ∧ ∀ v ∈ new, (v.source, v.run) ∉ s.stopped) ∧
      ∀ v ∈ t.meas.contents, (v.source, v.run) ∉ s.stopped := by
  have hsilenced := silenced_run sha256 (silenced_new e) hs
  constructor
  · obtain ⟨new, htaken, hsilent⟩ := taken_run sha256 hsilenced ht
    refine ⟨new.filterMap fun x => if x.1 = .applied then some x.2 else none, ?_, ?_⟩
    · rw [Runner.applied, htaken, List.filterMap_append]
      rfl
    · intro v hv
      obtain ⟨x, hx, happlied⟩ := List.mem_filterMap.mp hv
      obtain ⟨-, heq⟩ := Option.ite_none_right_eq_some.mp happlied
      exact Option.some.inj heq ▸ hsilent x hx
  · intro v hv hstopped
    exact (silenced_run sha256 hsilenced ht).queued v hv (stopped_run sha256 ht hstopped)

section Samples

open Discipline (gps report)
open Leap (firstBytes)

/-- The source's `Run` returns with a measurement in the queue, and the stop is processed. -/
def stoppingRun : List (RunnerLabel ℚ) :=
  [.send (report 1 .none), .ret gps, .reportStop gps, .takeStop, .drain, .drain,
    .finishStop 6 2 (steady 0)]

/-- The source is restarted and reports again. -/
def restartingRun : List (RunnerLabel ℚ) :=
  [.reportRestart gps, .send (report 3 .none), .takeRestart 4 0 0, .receive 5 0 5 (steady 0)]

/-- The queued measurement of the first run is dropped; that of the second is applied. -/
theorem stopped_run_stays_silent_gps :
    ∃ s t, Runs.run (Runner.step firstBytes) (.new (daemon .empty 0)) stoppingRun = some s ∧
      Runs.run (Runner.step firstBytes) s restartingRun = some t ∧
      s.stopped = [(gps, 0)] ∧ t.sent.map Sent.run = [0, 1] ∧ t.applied.map Sent.run = [1] ∧
      (∃ new, t.applied = s.applied ++ new ∧ ∀ v ∈ new, (v.source, v.run) ∉ s.stopped) ∧
      ∀ v ∈ t.meas.contents, (v.source, v.run) ∉ s.stopped := by
  have h : ((Runs.run (Runner.step firstBytes) (.new (daemon .empty 0)) stoppingRun).bind fun s =>
      (Runs.run (Runner.step firstBytes) s restartingRun).map fun t =>
        (s.stopped, t.sent.map Sent.run, t.applied.map Sent.run))
      = some ([(gps, 0)], [0, 1], [1]) := by decide +kernel
  obtain ⟨s, hs, h⟩ := Option.bind_eq_some_iff.mp h
  obtain ⟨t, ht, h⟩ := Option.map_eq_some_iff.mp h
  obtain ⟨hstopped, h⟩ := Prod.mk.inj h
  obtain ⟨hsent, happlied⟩ := Prod.mk.inj h
  exact ⟨s, t, hs, ht, hstopped, hsent, happlied,
    stopped_run_stays_silent firstBytes _ stoppingRun restartingRun s t hs ht⟩

end Samples

end Carillon
