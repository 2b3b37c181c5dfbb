/-
# The engine: leap boundaries, the leap authority and what is published

The engine goroutine's calls (`engine.go`, `engine/leap.go`): a tick, a measurement
taken off the queue, a source that stopped or restarts, and the updater's approval and
activation requests.  Every call carries the readings of the clock that it makes, in
the order it makes them, and whether the actuator obeys; the discipline is `System`.

Not part of the state here: the sources' filters (their epochs are in `Engine/Epoch`),
the drift file (`Engine/DriftWriter`) and the log.  `log` is a ghost: it records what
happened to the leap latch, and nothing reads it.
-/
import Carillon.Discipline.System
import Carillon.Leap.Store

namespace Carillon

open Discipline (HasSqrt Measurement Name Options System Action)
open Leap (Digest Object Record Table)

/-! ## State -/

/-- Who decides the leap indicator, `leapAuthority`. -/
inductive LeapAuthority where
  | unknown
  /-- The table of the configuration. -/
  | file
  /-- The active object, by the kind of its provider. -/
  | provider (kind : Leap.Kind)
  /-- The survivors' vote. -/
  | sources
  deriving DecidableEq

/-- Why there is no leap authority, `leapReason`. -/
inductive LeapReason where
  | ready
  | missingTable
  | rejected (reason : Leap.Reason)
  | utcNotEstablished
  deriving DecidableEq

/-- An armed leap: `pendingLeap` and `pendingLeapKind`, with the wall time and the
authority it was armed at and under, which the code logs. -/
structure Armed where
  boundary : ℤ
  kind : Ntp.Leap
  wall : ℤ
  authority : LeapAuthority
  deriving DecidableEq

/-- What happened to the leap latch. -/
inductive Note where
  /-- A leap was armed, with the wall time of the last check or step and the object
  that was active. -/
  | armed (a : Armed) (last : ℤ) (active : Option Object)
  /-- A boundary the kernel applied: filters reset, epoch bumped. -/
  | crossed (boundary : ℤ)
  /-- A boundary that a clock step went past. -/
  | passed (boundary : ℤ)
  /-- A crossing check or a step saw a wall time, with the latch before and after. -/
  | saw (wall : ℤ) (before after : Option Armed)
  /-- An object became active, with the latch as it was. -/
  | activated (o : Object) (pending : Option Armed)
  deriving DecidableEq

/-- `clock.Status`, the kernel's view; the error bounds in seconds. -/
@[ext]
structure KernelStatus (K : Type) where
  synced : Bool
  leap : Ntp.Leap
  maxError : K
  estError : K

instance {K : Type} [DecidableEq K] : DecidableEq (KernelStatus K) :=
  fun _ _ => decidable_of_iff _ KernelStatus.ext_iff.symm

/-- `engine.Status`, a published snapshot; `leapRecord` is what the code copies the
expiry, hash, provider and acceptance of the active object from. -/
structure Published (K : Type) where
  status : Discipline.Status K
  publishedMono : K
  now : ℤ
  clockState : Discipline.State
  leapReady : Bool
  leapReason : LeapReason
  leapDisagreement : Bool
  leapSource : LeapAuthority
  utcBound : ℤ
  timeKnown : Bool
  leapExecuted : ℤ
  leapRecord : Option Record
  /-- The object offered for export. -/
  leapObject : Option Object

/-- `engine.Config`, the part the leap logic reads. -/
structure EngineConfig (K : Type) where
  discipline : Discipline.Config K
  sources : List (Name × Options)
  leapRequired : Bool
  /-- A table for deterministic fixtures; the daemon leaves it out. -/
  leapTable : Option { t : Table // t.Valid }

/-- `Engine`.  `alive` is false once a fatal error has ended the run. -/
structure Engine (K : Type) where
  cfg : EngineConfig K
  sys : System K
  procNow : Option K
  lastLeapWall : ℤ
  lastLeapMono : K
  pendingLeap : Option Armed
  executedLeap : ℤ
  activeLeap : Option Record
  leapAnchor : Option Object
  approvedLeap : Option Leap.Manifest
  utcBound : ℤ
  startupUTCbound : ℤ
  clockState : Discipline.State
  timeKnown : Bool
  leapReady : Bool
  leapReason : LeapReason
  leapAuthority : LeapAuthority
  leapDisagreement : Bool
  leapExpiring : Bool
  gen : ℕ
  lastKernel : Option (KernelStatus K)
  /-- The sources whose goroutine has returned, `sourceErrors`. -/
  sourceErrors : List Name
  restarting : List Name
  published : List (Published K)
  alive : Bool
  log : List Note

variable {K : Type} [Field K] [LinearOrder K] [HasSqrt K]

/-- `processing`: the processing clock never goes backwards. -/
def Engine.processing (e : Engine K) (now : K) : Engine K × K :=
  let now := e.procNow.elim now (max now)
  ({ e with procNow := some now }, now)

/-! ## The latch -/

/-- `crossedAnnouncedLeapAt`, the test: the wall clock has gone past the armed
boundary since the last check, or an inserted second is being repeated. -/
def Engine.crosses (e : Engine K) (a : Armed) (wall : ℤ) (mono : K) : Bool :=
  let lostSecond : K := mono - e.lastLeapMono - (sub wall e.lastLeapWall : K) / 1000000000
  let repeated := a.kind = .insert ∧ wall < a.boundary ∧ a.boundary - second ≤ wall ∧
    a.boundary - 2 * second ≤ e.lastLeapWall ∧ 1 / 2 < lostSecond ∧ lostSecond < 3 / 2
  decide (e.lastLeapWall ≠ 0 ∧
    (repeated ∨ e.lastLeapWall < a.boundary ∧ a.boundary ≤ wall))

/-- The armed boundary is executed: it is latched, the epoch is bumped and the
discipline resynchronises. -/
def Engine.execute (e : Engine K) (a : Armed) (now : K) : Engine K :=
  { e with
    executedLeap := a.boundary
    utcBound := max e.utcBound a.boundary
    pendingLeap := none
    gen := e.gen + 2
    sys := (e.sys.resync now).1
    log := e.log ++ [.crossed a.boundary] }

/-- A check or a step has seen the wall clock. -/
def Engine.see (e : Engine K) (wall : ℤ) (before : Option Armed) : Engine K :=
  { e with lastLeapWall := wall, log := e.log ++ [.saw wall before e.pendingLeap] }

/-- `crossLeap`. -/
def Engine.crossLeap (e : Engine K) (now : K) (wall : ℤ) : Engine K :=
  let crossed := match e.pendingLeap with
    | some a => if e.crosses a wall now then e.execute a now else e
    | none => e
  { crossed with lastLeapMono := now }.see wall e.pendingLeap

/-- `notePendingLeap`: a warning arms the next midnight, unless a leap is armed or
was executed there. -/
def Engine.notePendingLeap (e : Engine K) (warning : Ntp.Leap) (wall : ℤ) : Engine K :=
  let a : Armed := ⟨nextMidnight wall, warning, wall, e.leapAuthority⟩
  if (warning = .insert ∨ warning = .delete) ∧ e.pendingLeap = none ∧
    e.executedLeap < a.boundary then
    { e with pendingLeap := some a, log := e.log ++
      [.armed a e.lastLeapWall (e.activeLeap.map (·.object))] }
  else e

/-! ## The leap authority -/

/-- The discipline is synchronised, or holds over. -/
def Discipline.Status.synced (st : Discipline.Status K) : Bool :=
  decide (st.state = .synced ∨ st.state = .holdover)

/-- UTC is known: the clock is synchronised, or settling with its error inside the
guard band, and the wall clock is not behind what has been established. -/
def Engine.knowsTime (e : Engine K) (st : Discipline.Status K) (wall : ℤ) : Bool :=
  let coarse := st.state = .settling ∧ st.systemSource ≠ none ∧
    |st.offset| + |st.pending| < Discipline.ppsGuard
  (st.synced || decide coarse) && decide (e.startupUTCbound ≤ wall) &&
    decide (e.utcBound ≤ wall + second)

/-- The first part of `applyLeap`: is UTC known, and how far has it come. -/
def Engine.establish (e : Engine K) (st : Discipline.Status K) (wall : ℤ) : Engine K :=
  let known := e.knowsTime st wall
  { e with
    clockState := st.state
    timeKnown := known
    utcBound := if known then max e.utcBound wall else e.utcBound }

section

variable (sha256 : Bytes → Digest)

/-- The table in force at an instant, or why there is none. -/
def Engine.table (e : Engine K) (validAt : ℤ) : Except LeapReason Table :=
  match e.activeLeap, e.cfg.leapTable with
  | some r, _ => match Leap.checkUpdate sha256 none (some r.object) validAt with
    | .ok _ => .ok r.object.table
    | .error err => .error (.rejected err.reason)
  | none, some t => if validAt < t.val.expiry then .ok t.val else .error (.rejected .expired)
  | none, none => .error .missingTable

/-- The second part of `applyLeap`: a table in force decides; without one, and if
none is required, the survivors do. -/
def Engine.judge (e : Engine K) (st : Discipline.Status K) (wall : ℤ) :
    Engine K × Discipline.Status K :=
  let validAt := max wall e.utcBound
  match e.table sha256 validAt with
  | .ok t =>
    let e := { e with leapExpiring := decide (sub t.expiry validAt ≤ 30 * day) }
    if e.timeKnown then
      ({ e with
          leapReady := true
          leapReason := .ready
          leapAuthority := e.activeLeap.elim .file (.provider ·.provider.kind)
          leapDisagreement := decide (st.leap ≠ .unsync ∧ st.leap ≠ t.indicator wall) },
        if st.synced then { st with leap := t.indicator wall } else st)
    else
      ({ e with
          leapReady := false
          leapReason := .utcNotEstablished
          leapAuthority := .unknown
          leapDisagreement := false }, st)
  | .error reason =>
    let e := { e with leapExpiring := false, leapDisagreement := false }
    if !e.cfg.leapRequired && decide (st.leap ≠ .unsync) && e.timeKnown then
      ({ e with leapReady := true, leapReason := .ready, leapAuthority := .sources }, st)
    else
      ({ e with
          leapReady := false
          leapReason := if e.timeKnown then reason else .utcNotEstablished
          leapAuthority := .unknown }, st)

/-- `leapMissingRefID`. -/
def leapMissingRefID : Ntp.RefID := Ntp.refIDFromString "XLEP"

/-- The last part of `applyLeap`: arm what the authority announces, or withhold
service when a table is required and there is none. -/
def Engine.announce (e : Engine K) (st : Discipline.Status K) (wall : ℤ) :
    Engine K × Discipline.Status K :=
  if e.leapReady then
    if st.synced then
      let e := e.notePendingLeap st.leap wall
      let warned := e.pendingLeap.elim st.leap fun a => if wall <
        a.boundary then a.kind else st.leap
      (e, { st with
        leap := if e.executedLeap ≠ 0 ∧ wall < e.executedLeap then .none else warned })
    else (e, st)
  else if st.synced && e.cfg.leapRequired then
    (e, { st with state := .unsynced, leap := .unsync, stratum := 16, refID := leapMissingRefID })
  else (e, st)

/-- `applyLeap`. -/
def Engine.applyLeap (e : Engine K) (st : Discipline.Status K) (wall : ℤ) :
    Engine K × Discipline.Status K :=
  let (e, st) := (e.establish st wall).judge sha256 st wall
  e.announce st wall

/-! ## Handling a result -/

/-- The readings that `handle` makes and what the actuator does: the wall clock at
the crossing check, after a step, for the authority, for the kernel flags and for
the snapshot. -/
structure Readings where
  cross : ℤ
  after : ℤ
  apply : ℤ
  kernel : ℤ
  publish : ℤ
  /-- The actuator takes frequency words and steps. -/
  actuates : Bool
  /-- The kernel takes the status. -/
  accepts : Bool

/-- `clock.maxDurationSeconds`. -/
def maxDurationSeconds : K := 9223372036

/-- A step went past the armed boundary. -/
def Engine.pass (e : Engine K) (a : Armed) : Engine K :=
  { e with
    executedLeap := a.boundary
    pendingLeap := none
    log := e.log ++ [.passed a.boundary] }

/-- A clock step that was taken: never a leap, but it may go past one. -/
def Engine.stepped (e : Engine K) (after : ℤ) : Engine K :=
  let passed := match e.pendingLeap with
    | some a => if a.boundary ≤ after then e.pass a else e
    | none => e
  passed.see after e.pendingLeap

/-- One action of a result.  A refused one is fatal, and what follows it is not
done. -/
def Engine.act (r : Readings) (e : Engine K) (a : Action K) : Engine K :=
  if e.alive then
    match a with
    | .setFrequency _ => { e with alive := r.actuates }
    | .step seconds =>
      if maxDurationSeconds < |seconds| then { e with alive := false }
      else
        let e := { e with gen := e.gen + 2, alive := r.actuates }
        if r.actuates then e.stepped r.after else e
    | .resetFilters => e
  else e

/-- The kernel status that `syncKernel` sets: an unknown indicator does not withdraw
synchronisation, and an armed leap is kept in the flags. -/
def Engine.kernelStatus (e : Engine K) (st : Discipline.Status K) (wall : ℤ) : KernelStatus K :=
  let bound (v : K) : K := max 0 (min 16 v)
  let armed := e.pendingLeap.elim .none fun a => if wall < a.boundary then a.kind else .none
  if st.synced then
    ⟨true, if st.leap = .unsync then armed else st.leap,
      bound (st.rootDisp + st.rootDelay / 2), bound st.jitter⟩
  else ⟨false, .unsync, 16, 16⟩

/-- `syncKernel`; a kernel that refuses is fatal. -/
def Engine.syncKernel (e : Engine K) (st : Discipline.Status K) (wall : ℤ) (accepts : Bool) :
    Engine K :=
  if e.lastKernel = some (e.kernelStatus st wall) then e
  else if accepts then { e with lastKernel := some (e.kernelStatus st wall) }
  else { e with alive := false }

/-- `publishStatus`. -/
def Engine.publishStatus (e : Engine K) (st : Discipline.Status K) (now : K) (wall : ℤ) :
    Engine K :=
  let p : Published K :=
    { status := st
      publishedMono := now
      now := wall
      clockState := e.clockState
      leapReady := e.leapReady
      leapReason := e.leapReason
      leapDisagreement := e.leapDisagreement
      leapSource := e.leapAuthority
      utcBound := e.utcBound
      timeKnown := e.timeKnown
      leapExecuted := e.executedLeap
      leapRecord := e.activeLeap
      leapObject := if e.leapReady && decide (e.leapAuthority ≠ .sources)
        then e.activeLeap.map (·.object) else none }
  { e with published := e.published ++ [p] }

/-- `publish`. -/
def Engine.publish (e : Engine K) (mono : K) (wall snapshot : ℤ) : Engine K :=
  let (e, now) := e.processing mono
  let (e, st) := e.applyLeap sha256 (e.sys.status now) wall
  e.publishStatus st now snapshot

/-- The result asks for a refusal to be fatal. -/
def panics (res : Discipline.Result K) : Bool :=
  res.events.any fun | .panicRefused _ => true | _ => false

/-- `handle`, up to the last action. -/
def Engine.perform (e : Engine K) (res : Discipline.Result K) (now : K) (r : Readings) : Engine K :=
  res.actions.foldl (Engine.act r) (e.crossLeap now r.cross)

/-- `handle`, after the actions: the authority, the kernel flags and the snapshot.  A
refused offset is published before it ends the run. -/
def Engine.report (e : Engine K) (res : Discipline.Result K) (now : K) (r : Readings) : Engine K :=
  let (e, st) := e.applyLeap sha256 (e.sys.status now) r.apply
  let e := e.syncKernel st r.kernel r.accepts
  if e.alive then { e.publishStatus st now r.publish with alive := !panics res } else e

/-- `handle`. -/
def Engine.handle (e : Engine K) (res : Discipline.Result K) (now : K) (r : Readings) : Engine K :=
  let (e, now) := e.processing now
  let e := e.perform res now r
  if e.alive then e.report sha256 res now r else e

/-! ## Calls -/

/-- `stale`, the judgement after the crossing check: a measurement of a stopped
source, or one taken outside the current settled epoch. -/
def Engine.stale (e : Engine K) (m : Measurement K) : Bool :=
  if e.sourceErrors.contains m.source && !e.restarting.contains m.source then true
  else decide (m.generation ≠ 0) &&
    !(decide (m.generation = e.gen) && decide (e.gen % 2 = 0))

/-- `noteSourceAlive`. -/
def Engine.noteSourceAlive (e : Engine K) (name : Name) : Engine K :=
  if e.restarting.contains name then
    { e with
      restarting := e.restarting.filter (· ≠ name)
      sourceErrors := e.sourceErrors.filter (· ≠ name) }
  else e

/-- `checkLeap`. -/
def Engine.checkLeap (e : Engine K) (r : Record) (wall : ℤ) (mono : K) :
    Engine K × Except Leap.Rejection Unit :=
  let (e, now) := e.processing mono
  let (e, _) := e.applyLeap sha256 (e.sys.status now) wall
  let answer : Except Leap.Rejection Unit :=
    if e.timeKnown then
      match Leap.checkUpdate sha256 e.leapAnchor (some r.object) (max wall e.utcBound) with
      | .error err => .error err
      | .ok _ =>
        if e.pendingLeap.all fun a =>
          decide (⟨a.boundary, a.kind⟩ ∈ r.object.table.transitions) then
          .ok ()
        else Leap.reject .armed "candidate removes or changes the armed leap"
    else Leap.reject .timeUnknown "UTC is not established"
  (e, answer)

/-- The object becomes the active one. -/
def Engine.activate (e : Engine K) (r : Record) : Engine K :=
  { e with
    activeLeap := some r
    leapAnchor := some r.object
    approvedLeap := none
    log := e.log ++ [.activated r.object e.pendingLeap] }

/-- The measurement that revokes a stopped source's estimate. -/
def revocation (name : Name) (now : K) (poll : ℤ) (generation : ℕ) : Measurement K where
  source := name
  now := now
  reach := 0
  poll := poll
  generation := generation
  valid := false
  acquired := false
  leapSample := false
  leapValue := .none
  leapObserved := 0
  invalidate := true
  at_ := 0
  offset := 0
  delay := 0
  dispersion := 0
  jitter := 0
  leap := .none
  stratum := 0
  refID := default
  rootDelay := 0
  rootDisp := 0
  precision := 0
  refTime := 0
  sourceRefID := default

/-- A call of the engine goroutine, with its readings in their order. -/
inductive Call (K : Type) where
  | tick (mono : K) (cross : ℤ) (r : Readings)
  | measurement (m : Measurement K) (mono : K) (cross : ℤ) (mono' : K) (r : Readings)
  | sourceStopped (name : Name) (poll : ℤ) (mono : K) (r : Readings)
  | sourceRestarting (name : Name) (mono : K) (wall snapshot : ℤ)
  /-- `ApproveLeap` or `ActivateLeap`, for a request that is not cancelled. -/
  | leapRequest (record : Record) (activate : Bool) (mono : K) (cross check : ℤ) (mono' mono'' : K)
      (r : Readings)

/-- What a call hands to `handle`. -/
structure Handling (K : Type) where
  result : Discipline.Result K
  now : K
  readings : Readings

/-- `leapRequest`. -/
def Engine.leapRequest (e : Engine K) (record : Record) (activate : Bool) (mono : K)
    (cross check : ℤ) (mono' mono'' : K) (r : Readings) : Engine K × Option (Handling K) :=
  let (e, now) := e.processing mono
  let (e, answer) := (e.crossLeap now cross).checkLeap sha256 record check mono'
  match answer with
  | .error _ => (e, none)
  | .ok _ =>
    let manifest := record.object.manifest sha256
    if !activate then ({ e with approvedLeap := some manifest }, none)
    else if e.approvedLeap ≠ some manifest then (e, none)
    else
      let (e, now) := (e.activate record).processing mono''
      (e, some ⟨⟨[], []⟩, now, r⟩)

/-- A call up to its `handle`, if it comes to that. -/
def Engine.submit (e : Engine K) : Call K → Engine K × Option (Handling K)
  | .tick mono cross r =>
    let (e, now) := e.processing mono
    let e := e.crossLeap now cross
    let (sys, res) := e.sys.tick now
    ({ e with sys := sys }, some ⟨res, now, r⟩)
  | .measurement m mono cross mono' r =>
    let (e, now) := e.processing mono
    let e := e.crossLeap now cross
    if e.stale m then (e, none)
    else
      let (e, now) := e.processing mono'
      let e := e.noteSourceAlive m.source
      let (sys, res) := e.sys.update { m with now := now }
      ({ e with sys := sys }, some ⟨res, now, r⟩)
  | .sourceStopped name poll mono r =>
    if e.sys.registered name then
      let (e, now) := { e with sourceErrors := name :: e.sourceErrors }.processing mono
      let (sys, res) := e.sys.update (revocation name now poll e.gen)
      ({ e with sys := sys }, some ⟨res, now, r⟩)
    else (e, none)
  | .sourceRestarting name mono wall snapshot =>
    ({ e with restarting := name :: e.restarting }.publish sha256 mono wall snapshot, none)
  | .leapRequest record activate mono cross check mono' mono'' r =>
    e.leapRequest sha256 record activate mono cross check mono' mono'' r

/-- One call of a live engine. -/
def Engine.call (e : Engine K) (c : Call K) : Option (Engine K) :=
  if e.alive then
    match e.submit sha256 c with
    | (e, none) => some e
    | (e, some h) => some (e.handle sha256 h.result h.now h.readings)
  else none

/-- The engine that `New` builds, before it publishes. -/
def Engine.init (cfg : EngineConfig K) (state : Leap.State) (freq : K) (freqKnown : Bool)
    (started : ℤ) (mono : K) : Engine K where
  cfg := cfg
  sys := cfg.sources.foldl (fun s src => s.addSource src.1 src.2)
    (System.new cfg.discipline freq freqKnown)
  procNow := none
  lastLeapWall := started
  lastLeapMono := mono
  pendingLeap := none
  executedLeap := state.executed
  activeLeap := state.active
  leapAnchor := state.anchor
  approvedLeap := none
  utcBound := state.utcBound
  startupUTCbound := state.utcBound
  clockState := .unsynced
  timeKnown := false
  leapReady := false
  leapReason := .missingTable
  leapAuthority := .unknown
  leapDisagreement := false
  leapExpiring := false
  gen := 2
  lastKernel := none
  sourceErrors := []
  restarting := []
  published := []
  alive := true
  log := []

/-- `New`, from a durable state. -/
def Engine.new (cfg : EngineConfig K) (state : Leap.State) (freq : K) (freqKnown : Bool)
    (started : ℤ) (mono : K) (wall snapshot : ℤ) : Engine K :=
  (Engine.init cfg state freq freqKnown started mono).publish sha256 mono wall snapshot

/-! ## Readings in order -/

/-- The result steps the clock. -/
def steps (res : Discipline.Result K) : Bool := res.actions.any Action.isStep

/-- The wall clock does not go back between the readings of `handle`, but by the step
it takes itself, and it is not at the zero time. -/
def Readings.Ordered (r : Readings) (stepped : Bool) : Prop :=
  0 < r.cross ∧ 0 < r.after ∧ (if stepped then r.after ≤ r.apply else r.cross ≤ r.apply) ∧
    r.apply ≤ r.kernel ∧ r.kernel ≤ r.publish

/-- The wall readings a call makes before `handle`. -/
def Call.walls : Call K → List ℤ
  | .tick _ cross _ | .measurement _ _ cross _ _ => [cross]
  | .sourceStopped _ _ _ _ => []
  | .sourceRestarting _ _ wall snapshot => [wall, snapshot]
  | .leapRequest _ _ _ cross check _ _ _ => [cross, check]

/-- The wall clock does not go back inside the call, but by the call's own step. -/
def Engine.Ordered (e : Engine K) (c : Call K) : Prop :=
  c.walls.Pairwise (· ≤ ·) ∧ (∀ w ∈ c.walls, 0 < w) ∧
    ∀ h ∈ (e.submit sha256 c).2,
      (∀ w ∈ c.walls, w ≤ h.readings.cross) ∧ h.readings.Ordered (steps h.result)

instance (r : Readings) (stepped : Bool) : Decidable (r.Ordered stepped) :=
  inferInstanceAs (Decidable (_ ∧ _ ∧ _ ∧ _ ∧ _))

instance (e : Engine K) (c : Call K) : Decidable (e.Ordered sha256 c) :=
  inferInstanceAs (Decidable (_ ∧ _ ∧ _))

end

end Carillon
