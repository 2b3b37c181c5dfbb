/-
# The system: sources, selection, loop and the synchronisation state machine

`system.go`.  Each operation is a function from the system to the system and a
`Result`; `reselect`, the part they share, is cut where the code branches:
`loseSystem` when no source drives the clock, `idle` when the system source has
nothing new, and `feed` when the loop runs.
-/
import Carillon.Discipline.Select
import Carillon.Discipline.Loop

namespace Carillon.Discipline

open Ntp (RefID)

/-- `Config`. -/
structure Config (K : Type) where
  loop : LoopConfig K
  minSurvivors : ℕ
  holdoverMax : K
  settleUpdates : ℕ
  localRefIDs : List RefID

/-- `Result`: what the engine must do after an operation. -/
structure Result (K : Type) where
  actions : List (Action K)
  events : List (Event K)

/-- `System`.  The map of sources and its order are one list; of the last
selection only `ppsQualified` is read again. -/
structure System (K : Type) where
  cfg : Config K
  sources : List (SourceState K)
  loop : Loop K
  state : State
  /-- Acquisitions from the system source since the last step. -/
  sinceStep : ℕ
  /-- Loop updates since the last step. -/
  postStepUpdates : ℕ
  /-- The next loop update restores SYNCED without settling. -/
  resyncing : Bool
  /-- Synchronisation was established and still applies to the clock. -/
  everSynced : Bool
  rootDispAt : K
  unsyncedReason : RefID
  ppsQualified : Bool
  sysName : Option Name
  lastUpdate : K
  haveUpdate : Bool
  offset : K
  rootDelay : K
  rootDisp : K
  stratum : ℕ
  refID : RefID
  leap : Ntp.Leap
  holdoverSince : K
  preferLost : Bool

variable {K : Type} [Field K] [LinearOrder K]

/-- `New`. -/
def System.new (cfg : Config K) (freq : K) (freqKnown : Bool) : System K where
  cfg := { cfg with
    minSurvivors := max 1 cfg.minSurvivors
    settleUpdates := max 1 cfg.settleUpdates }
  sources := []
  loop := Loop.new cfg.loop freq freqKnown
  state := .unsynced
  sinceStep := 0
  postStepUpdates := 0
  resyncing := false
  everSynced := false
  rootDispAt := 0
  unsyncedReason := Ntp.kissINIT
  ppsQualified := false
  sysName := none
  lastUpdate := 0
  haveUpdate := false
  offset := 0
  rootDelay := 0
  rootDisp := 0
  stratum := 16
  refID := Ntp.kissINIT
  leap := .unsync
  holdoverSince := 0
  preferLost := false

/-! ## The state machine -/

/-- `System.setState`. -/
def System.setState (s : System K) (new : State) : System K × List (Event K) :=
  if s.state = new then (s, [])
  else
    ({ s with state := new, everSynced := s.everSynced || decide (new = .synced) },
      [.stateChange s.state new])

/-- `System.settleDone`: a loop update has run since the step, enough
acquisitions have been made, and another step is not on the table. -/
def System.settleDone (s : System K) (offset : K) : Bool :=
  decide (1 ≤ s.postStepUpdates) && decide (s.cfg.settleUpdates ≤ s.sinceStep)
    && (!s.loop.stepAllowed || decide (|offset| ≤ s.cfg.loop.stepThreshold))

/-- `System.mayStep`: a further step must rest on more than one sample taken
since the last. -/
def System.mayStep (s : System K) (survivors : List (SourceState K)) (sys : SourceState K) : Bool :=
  decide (s.loop.steps = 0) || decide (2 ≤ sys.sinceStep)
    || decide (2 ≤ survivors.countP (1 ≤ ·.sinceStep))

/-- `reselect` without a system source: synchronisation that still applies is
coasted on, and a clock that was settling is given up. -/
def System.loseSystem (s : System K) (now : K) : System K × List (Event K) :=
  let s := { s with sysName := none }
  match s.state with
  | .synced => { s with holdoverSince := now }.setState .holdover
  | .settling =>
    if s.everSynced then { s with holdoverSince := now }.setState .holdover
    else { s with unsyncedReason := Ntp.kissINIT }.setState .unsynced
  | .unsynced | .holdover => (s, [])

/-- A system source ends holdover even when it has nothing new. -/
def System.leaveHoldover (s : System K) : System K × List (Event K) :=
  if s.state = .holdover then s.setState .settling else (s, [])

/-- `reselect` when the system source has no sample the loop has not used. -/
def System.idle (s : System K) : System K × List (Event K) :=
  let (s, left) := s.leaveHoldover
  if s.state = .settling && s.settleDone s.offset then
    let (s, done) := s.setState .synced
    (s, left ++ done)
  else (s, left)

/-- The state after a loop update that was not a step. -/
def System.advance (s : System K) (offset : K) : System K × List (Event K) :=
  let s := { s with offset := offset, postStepUpdates := s.postStepUpdates + 1 }
  if s.state = .synced then (s, [])
  else if s.resyncing || s.settleDone offset then { s with resyncing := false }.setState .synced
  else s.setState .settling

/-- The system after a clock step: every estimate and all settling evidence
belong to the clock as it was. -/
def System.restart (s : System K) : System K × List (Event K) :=
  { s with
    sources := s.sources.map SourceState.invalidate
    offset := 0
    sinceStep := 0
    postStepUpdates := 0
    resyncing := false
    everSynced := false }.setState .settling

/-- The system variables taken from the system source. -/
def System.adopt (s : System K) (sys : SourceState K) (jitter now : K) : System K :=
  { s with
    stratum := if 15 ≤ sys.stratum then 16 else sys.stratum + 1
    refID := sys.sourceRefID
    rootDelay := sys.rootDelay + sys.delay
    rootDisp := sys.rootDisp + sys.dispersion + jitter
    rootDispAt := sys.updated
    lastUpdate := now
    haveUpdate := true }

/-! ## Reselection -/

/-- The events of a source's change of role. -/
def roleEvents (was new : SourceState K) : List (Event K) :=
  (if new.status = .falseticker ∧ was.status ≠ .falseticker then
    [.falseticker new.name new.offset] else []) ++
  (if was.status = .falseticker ∧ new.status ≠ .falseticker ∧ new.status ≠ .unreachable then
    [.truechimer new.name new.offset] else []) ++
  if new.pps then
    if new.status = .unqualified ∧ was.status ≠ .unqualified then [.ppsUnqualified new.name]
    else if was.status = .unqualified ∧ new.status ≠ .unqualified ∧ new.status ≠ .unreachable
        ∧ new.status ≠ .invalid ∧ new.status ≠ .falseticker then [.ppsQualified new.name]
    else []
  else []

/-- What a selection writes into the system, whatever it selected. -/
def System.record (s : System K) (all : List (SourceState K)) (sel : Selection K) (now : K) :
    System K :=
  { s with
    sources := all
    preferLost := sel.preferLost
    ppsQualified := sel.ppsQualified
    leap := majorityLeap sel.survivors now }

/-- The system source's sample is used up. -/
def System.consume (s : System K) (sys : SourceState K) : System K :=
  { s with
    sources := s.sources.map fun t : SourceState K =>
      if t.name = sys.name then { t with usedAt := sys.at_ } else t }

/-- What follows from the loop's verdict on the selected offset. -/
def System.conclude (s : System K) (sel : Selection K) (sys : SourceState K) (now : K) :
    Verdict K → System K × Result K
  | .deferred => (s, ⟨[], []⟩)
  | .panicRefused =>
    let (s, ev) := { s with unsyncedReason := Ntp.kissPANC }.setState .unsynced
    (s, ⟨[], .panicRefused sel.offset :: ev⟩)
  | .ignored => (s, ⟨[], [.popcorn sel.offset]⟩)
  | .stepped actions =>
    let (s, ev) := s.restart
    (s.adopt sys sel.jitter now, ⟨actions, .step sel.offset :: ev⟩)
  | .updated =>
    let (s, ev) := s.advance sel.offset
    (s.adopt sys sel.jitter now, ⟨[], ev⟩)

variable [HasSqrt K]

/-- `reselect` when the loop runs on a new sample of the system source. -/
def System.feed (s : System K) (sel : Selection K) (sys : SourceState K) (now : K) :
    System K × Result K :=
  let (loop, verdict) := s.loop.update sel.offset sys.poll now (s.state = .synced)
    (s.mayStep sel.survivors sys)
  { s.consume sys with loop := loop }.conclude sel sys now verdict

/-- `reselect` after the selection: without a system source the clock coasts or
is given up, and otherwise the loop runs when that source has a new sample. -/
def System.drive (s : System K) (sel : Selection K) (now : K) :
    Option (SourceState K) → System K × Result K
  | none =>
    let (s, ev) := s.loseSystem now
    (s, ⟨[], ev⟩)
  | some sys =>
    let named := if s.sysName = some sys.name then [] else [.systemSource sys.name]
    let s := { s with sysName := some sys.name }
    if sys.at_ ≤ sys.usedAt then
      let (s, ev) := s.idle
      (s, ⟨[], named ++ ev⟩)
    else
      let (s, res) := s.feed sel sys now
      (s, ⟨res.actions, named ++ res.events⟩)

/-- `System.reselect`. -/
def System.reselect (s : System K) (now : K) : System K × Result K :=
  let (all, sel) := selectAt s.sources now s.cfg.minSurvivors
    ⟨s.cfg.localRefIDs, s.loop.appliedSince⟩
  let events := sel.events ++ (List.zipWith roleEvents s.sources all).flatten ++
    if sel.preferLost = s.preferLost then []
    else if sel.preferLost then [.preferLost] else [.preferRegained]
  let (t, res) := (s.record all sel now).drive sel now sel.system
  (t, ⟨res.actions, events ++ res.events⟩)

/-! ## The operations -/

/-- The operations of a `System`, with their arguments. -/
inductive Op (K : Type) where
  | addSource (name : Name) (o : Options)
  | removeSource (name : Name) (now : K)
  | update (m : Measurement K)
  | tick (now : K)
  | invalidateSources (now : K)
  | resync (now : K)

/-- A source of this name is registered. -/
def System.registered (s : System K) (name : Name) : Bool :=
  s.sources.any (·.name = name)

/-- `System.AddSource`: a name that is already registered starts over in place. -/
def System.addSource (s : System K) (name : Name) (o : Options) : System K :=
  if s.registered name then
    { s with
      sources := s.sources.map fun t : SourceState K => if t.name = name then .fresh name o else t }
  else { s with sources := s.sources ++ [.fresh name o] }

/-- `System.RemoveSource`. -/
def System.removeSource (s : System K) (name : Name) (now : K) : System K × Result K :=
  if s.registered name then
    { s with sources := s.sources.filter (·.name ≠ name) }.reselect now
  else (s, ⟨[], []⟩)

/-- `System.InvalidateSources`. -/
def System.invalidateSources (s : System K) (now : K) : System K × Result K :=
  { s with sources := s.sources.map SourceState.invalidate }.reselect now

/-- `System.Resync`. -/
def System.resync (s : System K) (now : K) : System K × Result K :=
  { s with
    sources := s.sources.map SourceState.invalidate
    resyncing := decide (s.state = State.synced ∨ s.state = State.holdover) }.reselect now

/-- A measurement is recorded, and counted when it is an acquisition from the
system source. -/
def System.take (s : System K) (m : Measurement K) : System K :=
  { s with
    sources := s.sources.map fun t : SourceState K => if t.name = m.source then t.apply m else t
    sinceStep := if s.sysName = some m.source ∧ m.isAcquisition then s.sinceStep + 1
      else s.sinceStep }

/-- `System.Update`. -/
def System.update (s : System K) (m : Measurement K) : System K × Result K :=
  if s.registered m.source then (s.take m).reselect m.now
  else (s, ⟨[], [.unknownSource m.source]⟩)

/-- The holdover timeout of `Tick`. -/
def System.expire (s : System K) (now : K) : System K × List (Event K) :=
  if s.state = .holdover ∧ s.cfg.holdoverMax < now - s.holdoverSince then
    { s with unsyncedReason := Ntp.kissHOLD }.setState .unsynced
  else (s, [])

/-- `System.Tick`. -/
def System.tick (s : System K) (now : K) : System K × Result K :=
  let (s, res) := s.reselect now
  let (loop, slew) := s.loop.tick now
  let (s, ev) := { s with loop := loop }.expire now
  (s, ⟨slew ++ res.actions, res.events ++ ev⟩)

/-- One operation of a system. -/
def System.apply (s : System K) : Op K → System K × Result K
  | .addSource name o => (s.addSource name o, ⟨[], []⟩)
  | .removeSource name now => s.removeSource name now
  | .update m => s.update m
  | .tick now => s.tick now
  | .invalidateSources now => s.invalidateSources now
  | .resync now => s.resync now

/-! ## Status -/

/-- `Status`.  The sources' lines are the sources themselves. -/
structure Status (K : Type) where
  state : State
  stratum : ℕ
  refID : RefID
  leap : Ntp.Leap
  rootDelay : K
  rootDisp : K
  offset : K
  frequency : K
  freqKnown : Bool
  jitter : K
  pending : K
  systemSource : Option Name
  preferLost : Bool
  ppsQualified : Bool
  lastUpdate : K
  updates : ℕ
  steps : ℕ
  sources : List (SourceState K)

/-- `System.Status`. -/
def System.status (s : System K) (now : K) : Status K :=
  let st : Status K :=
    { state := s.state
      stratum := s.stratum
      refID := s.refID
      leap := s.leap
      rootDelay := s.rootDelay
      rootDisp := if s.haveUpdate
        then s.rootDisp + phi * max 0 (now - s.rootDispAt) + |s.loop.pending| else 0
      offset := s.offset
      frequency := s.loop.freq
      freqKnown := s.loop.freqKnown
      jitter := s.loop.jitter
      pending := s.loop.pending
      systemSource := s.sysName
      preferLost := s.preferLost
      ppsQualified := s.ppsQualified
      lastUpdate := if s.haveUpdate then s.lastUpdate else 0
      updates := s.loop.updates
      steps := s.loop.steps
      sources := s.sources }
  match s.state with
  | .unsynced =>
    { st with stratum := 16, leap := .unsync, rootDisp := maxDispersion, refID := s.unsyncedReason }
  | .settling =>
    { st with
      leap := .unsync
      refID := if 0 < s.loop.steps ∧ s.offset = 0 then Ntp.kissSTEP else s.refID }
  | .synced | .holdover => st

end Carillon.Discipline
