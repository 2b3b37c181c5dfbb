/-
# The leap updater

`Updater.Run` owns the leap cache: it checkpoints the engine's clock evidence, saves
the state, installs the objects that its acquisition jobs bring and has the engine
activate them.  It is modelled as a machine whose steps are the points where the
goroutine meets its surroundings: a reading of the engine's view, a save, a request
to the engine, the result of a job, a tick, the cancellation of its context.  Each
label carries what the surroundings answer; what time only decides (whether a retry
is due) is left open.

A request is a closure that the engine goroutine runs.  It looks at the context once,
then does its work, so a cancellation in between leaves an activation that takes
effect although the updater has already given up waiting for it.
-/
import Mathlib.Tactic
import Carillon.Lib.Runs
import Carillon.Leap.Store

namespace Carillon.Leap

/-! ## Views and configuration -/

/-- `View`: the clock evidence that the engine shows its worker. -/
structure View where
  now : ℤ
  known : Bool
  utcBound : ℤ
  executed : ℤ
  deriving DecidableEq, Repr

/-- The later of the reading and the bound, the instant that decisions are made at. -/
def View.effective (v : View) : ℤ := if v.now < v.utcBound then v.utcBound else v.now

/-- `Seed`: a fixed HTTPS publisher. -/
inductive Seed where
  | nist
  | iers
  deriving DecidableEq, Repr

def Seed.kind : Seed → Kind
  | .nist => .nist
  | .iers => .iers

def Seed.url : Seed → String
  | .nist => "https://tf.nist.gov/leap-seconds.list"
  | .iers => "https://hpiers.obspm.fr/iers/bul/bulc/ntp/leap-seconds.list"

/-- What the updater keeps of a `Peer` it fetches from. -/
structure Peer where
  name : Bytes
  keyID : ℕ
  deriving DecidableEq, Repr

/-- The acquisition mode. -/
inductive Mode where
  | manual (path : Bytes)
  | seed (s : Seed)
  | peers (ps : List Peer)
  deriving DecidableEq, Repr

/-- The provider that a job records; in peer mode there is one for each peer. -/
def Mode.provider : Mode → ℕ → Option Provider
  | .manual path, _ => some ⟨.file, path, 0⟩
  | .seed s, _ => some ⟨s.kind, s.url.toUTF8.toList, 0⟩
  | .peers ps, i => ps[i]?.map fun p => ⟨.peer, p.name, p.keyID⟩

def Mode.isSeed : Mode → Bool
  | .seed _ => true
  | _ => false

/-! ## The updater's own state -/

/-- The fields of `Updater` that decide what it does. -/
structure Updater where
  state : State
  dirty : Bool
  committed : Bool
  deriving DecidableEq

/-- `checkpointInterval`. -/
def checkpointInterval : ℤ := 15 * minute

/-- Whether a view shows the active table to have expired since the last bound. -/
def State.expiredBy (s : State) (v : View) : Bool :=
  match s.active with
  | some a => decide (a.object.table.expiry ≤ v.utcBound) &&
    decide (s.utcBound < a.object.table.expiry)
  | none => false

/-- `checkpoint`. -/
def Updater.checkpoint (u : Updater) (v : View) (force : Bool) : Updater :=
  let executed := decide (u.state.executed < v.executed)
  let u := if executed then
      { u with state := { u.state with executed := v.executed }, dirty := true }
    else u
  if u.state.utcBound < v.utcBound ∧ (force = true ∨ executed = true ∨ u.state.expiredBy v = true ∨
      checkpointInterval ≤ sub v.utcBound u.state.utcBound) then
    { u with state := { u.state with utcBound := v.utcBound }, dirty := true }
  else u

/-- The end of a successful check of a seed: its date, and the bound that covers it. -/
def Updater.seedChecked (u : Updater) (v : View) : Updater :=
  if v.known then
    let bound := if u.state.utcBound < v.utcBound then v.utcBound else u.state.utcBound
    let bound := if bound < v.now then v.now else bound
    { u with state := { u.state with lastCheck := v.now, utcBound := bound }, dirty := true }
  else u

/-- What `install` does with an approved record before it saves. -/
def Updater.approved (u : Updater) (r : Record) : Updater :=
  { state := { u.state with pending := some r, utcBound := r.accepted }
    dirty := true
    committed := false }

/-- What `activate` does with an activated record before it saves. -/
def Updater.activated (u : Updater) (r : Record) : Updater :=
  { u with state := { u.state with active := some r, pending := none }, dirty := true }

/-! ## Requests to the engine -/

/-- A request is queued for the engine, being worked on, or answered. -/
inductive Phase where
  | queued
  | running
  | answered (ok : Bool)
  deriving DecidableEq, Repr

/-- A request to approve or to activate a record.  It is an orphan once the updater
has stopped waiting for it. -/
structure Request where
  record : Record
  activate : Bool
  phase : Phase
  orphan : Bool
  deriving DecidableEq

/-- The leap authority of the engine.  `alive` is false once its loop has ended. -/
structure Authority where
  active : Option Record
  anchor : Option Object
  approved : Option Manifest
  alive : Bool
  deriving DecidableEq

/-- Where `activate` was called from. -/
inductive Caller where
  | loop (v : View)
  | install
  deriving DecidableEq, Repr

/-- Where the updater goroutine is. -/
inductive Pc where
  /-- The head of the loop. -/
  | top
  /-- Before the save of a dirty state. -/
  | persist (v : View)
  /-- Before the attempt to activate a pending object. -/
  | tryActivate (v : View)
  /-- Before the start of a job. -/
  | schedule (v : View)
  /-- In the select. -/
  | select
  /-- In `install`, before the view. -/
  | installing (o : Object) (p : Provider)
  /-- In `install`, waiting for the approval. -/
  | approveInstall (r : Record)
  /-- In `install`, before the save. -/
  | commit
  /-- In `activate`, waiting for the approval. -/
  | approve (r : Record) (c : Caller)
  /-- In `activate`, waiting for the activation. -/
  | activating (r : Record) (c : Caller)
  /-- In `activate`, before the save. -/
  | compact (c : Caller)
  /-- After a successful result in a seed mode, before the view. -/
  | seedCheck
  /-- In the deferred function, before the view. -/
  | closing
  /-- In the deferred function, before the last save. -/
  | closingSave
  | halted
  deriving DecidableEq

/-- The updater with its surroundings: the engine's authority, the content of the
disk, and the states that were handed to `Save`, the latest first. -/
structure World where
  u : Updater
  pc : Pc
  inflight : Option Provider
  ctxDone : Bool
  slot : Option Request
  eng : Authority
  disk : State
  saves : List State
  deriving DecidableEq

/-- A start of the daemon from a loaded state. -/
def World.start (s : State) : World where
  u := ⟨s, false, true⟩
  pc := .top
  inflight := none
  ctxDone := false
  slot := none
  eng := ⟨s.active, s.anchor, none, true⟩
  disk := s
  saves := []

/-! ## Steps -/

/-- The outcome of a save: success, or a failure before or after the new content
reached the disk. -/
inductive SaveOutcome where
  | ok
  | failed (written : Bool)
  deriving DecidableEq, Repr

/-- The result of a job. -/
inductive JobResult where
  | error
  | unchanged
  | object (o : Object)
  deriving DecidableEq

/-- What the surroundings do. -/
inductive Label where
  /-- `LeapView` returns. -/
  | view (v : View)
  /-- `Save` returns. -/
  | save (out : SaveOutcome)
  /-- A retry or a job is not due. -/
  | skip
  /-- An activation of the pending object is due. -/
  | attempt
  /-- A job is due, in peer mode for the peer of that number. -/
  | job (i : ℕ)
  | tick
  /-- The job ends. -/
  | result (res : JobResult)
  /-- The updater sees its context done. -/
  | stop
  /-- The context is cancelled. -/
  | cancel
  /-- The engine takes the request up and finds its context not done. -/
  | begin_
  /-- The engine refuses the request. -/
  | refuse
  /-- The engine grants the request on its own view; the work that follows an
  activation may fail, which ends the engine. -/
  | grant (v : View) (fails : Bool)
  /-- The updater receives the answer. -/
  | receive
  /-- The updater stops waiting for the answer because its context is done. -/
  | abandon
  /-- The engine's loop ends. -/
  | die
  deriving DecidableEq

/-- `save`: the state goes to the store. -/
def World.save (w : World) (out : SaveOutcome) : World :=
  let w := { w with saves := w.u.state :: w.saves }
  match out with
  | .ok => { w with u := { w.u with dirty := false, committed := true }, disk := w.u.state }
  | .failed true => { w with u := { w.u with dirty := true }, disk := w.u.state }
  | .failed false => { w with u := { w.u with dirty := true } }

/-- A call of `ApproveLeap` or `ActivateLeap`.  Once the context is done, a closure
that still reaches the engine does nothing. -/
def World.call (w : World) (r : Record) (activate : Bool) : World :=
  if w.ctxDone then w else { w with slot := some ⟨r, activate, .queued, false⟩ }

/-- The end of the handling of a result, with or without an error. -/
def World.finish (mode : Mode) (w : World) (ok : Bool) : World :=
  { w with pc := if ok && mode.isSeed then .seedCheck else .top }

/-- The return of `activate`.  An error in the loop only delays the next attempt. -/
def World.returnTo (mode : Mode) (w : World) (c : Caller) (ok : Bool) : World :=
  match c with
  | .loop v => { w with pc := .schedule v }
  | .install => w.finish mode ok

/-- The beginning of `activate`. -/
def World.activate (mode : Mode) (w : World) (c : Caller) : World :=
  match w.u.state.pending with
  | some r => if w.u.committed then { w.call r false with pc := .approve r c } else w.returnTo
    mode c true
  | none => w.returnTo mode c true

/-- The answer to the request in the slot, which an orphan's caller never reads. -/
def World.answer (w : World) (q : Request) (ok : Bool) : World :=
  { w with slot := if q.orphan then none else some { q with phase := .answered ok } }

section

variable (sha256 : Bytes → Digest) (accepts : Option Object → Object → ℤ → Bool) (mode : Mode)

/-- The object is the active one already, and no other is pending. -/
def State.unchanged (s : State) (o : Object) : Bool :=
  match s.active, s.pending with
  | some a, none => decide (a.object.manifest sha256 = o.manifest sha256)
  | _, _ => false

/-- `install` up to the request for approval. -/
def World.install (w : World) (o : Object) (p : Provider) (v : View) : World :=
  if v.known = false then w.finish mode false
  else match checkUpdate sha256 w.u.state.anchor (some o) v.effective with
    | .error _ => w.finish mode false
    | .ok () =>
      if w.u.state.unchanged sha256 o then w.finish mode true
      else { w.call ⟨o, p, v.effective⟩ false with pc := .approveInstall ⟨o, p, v.effective⟩ }

/-- What follows a view. -/
def onView (w : World) (v : View) : Option World :=
  match w.pc with
  | .top =>
    if w.ctxDone then none else some { w with u := w.u.checkpoint v false, pc := .persist v }
  | .installing o p => some (w.install sha256 mode o p v)
  | .seedCheck => some { w with u := w.u.seedChecked v, pc := .top }
  | .closing => some { w with u := w.u.checkpoint v true, pc := .closingSave }
  | _ => none

/-- What follows a save. -/
def onSave (w : World) (out : SaveOutcome) : Option World :=
  match w.pc with
  | .persist v => if w.u.dirty then some { w.save out with pc := .tryActivate v } else none
  | .commit =>
    some (if out = .ok then (w.save out).activate mode .install else (w.save out).finish mode false)
  | .compact c => some ((w.save out).returnTo mode c (decide (out = .ok)))
  | .closingSave => if w.u.dirty then some { w.save out with pc := .halted } else none
  | _ => none

/-- What follows when nothing is due. -/
def onSkip (w : World) : Option World :=
  match w.pc with
  | .persist v => some { w with pc := .tryActivate v }
  | .tryActivate v => some { w with pc := .schedule v }
  | .schedule _ => some { w with pc := .select }
  | .closingSave => if w.u.dirty then none else some { w with pc := .halted }
  | _ => none

/-- A due activation. -/
def onAttempt (w : World) : Option World :=
  match w.pc with
  | .tryActivate v =>
    if v.known ∧ w.u.state.pending.isSome ∧
      w.u.committed then some (w.activate mode (.loop v)) else none
  | _ => none

/-- The start of a job. -/
def onJob (w : World) (i : ℕ) : Option World :=
  match w.pc, mode.provider i with
  | .schedule v, some p =>
    if v.known ∧ w.inflight = none ∧ w.u.dirty = false then
      some { w with inflight := some p, pc := .select }
    else none
  | _, _ => none

/-- The result of a job. -/
def onResult (w : World) (res : JobResult) : Option World :=
  match w.pc, w.inflight with
  | .select, some p =>
    let w := { w with inflight := none }
    match res with
    | .error => some (w.finish mode false)
    | .unchanged => some (w.finish mode true)
    | .object o => some { w with pc := .installing o p }
  | _, _ => none

/-- The return from the loop, with the job drained. -/
def onStop (w : World) : Option World :=
  if w.ctxDone = true ∧ (w.pc = .top ∨ w.pc = .select) then
    some { w with inflight := none, pc := .closing }
  else none

/-- The engine takes the request up. -/
def onBegin (w : World) : Option World :=
  match w.slot with
  | some q =>
    if q.phase = .queued ∧ w.ctxDone = false ∧ w.eng.alive = true then
      some { w with slot := some { q with phase := .running } }
    else none
  | none => none

/-- The engine refuses the request. -/
def onRefuse (w : World) : Option World :=
  match w.slot with
  | some q => if q.phase = .running then some (w.answer q false) else none
  | none => none

/-- The engine grants the request. -/
def onGrant (w : World) (v : View) (fails : Bool) : Option World :=
  match w.slot with
  | some q =>
    if q.phase = .running ∧ v.known = true ∧
        accepts w.eng.anchor q.record.object v.effective = true then
      let m := q.record.object.manifest sha256
      if q.activate then
        if w.eng.approved = some m then
          some ({ w with eng := ⟨some q.record, some q.record.object, none, !fails⟩ }.answer q
            !fails)
        else none
      else some ({ w with eng := { w.eng with approved := some m } }.answer q true)
    else none
  | none => none

/-- The updater goes on with an answer. -/
def World.proceed (w : World) (ok : Bool) : Option World :=
  match w.pc with
  | .approveInstall r =>
    some (if ok then { w with u := w.u.approved r, pc := .commit } else w.finish mode false)
  | .approve r c =>
    some (if ok then { w.call r true with pc := .activating r c } else w.returnTo mode c false)
  | .activating r c =>
    some (if ok then { w with u := w.u.activated r, pc := .compact c } else w.returnTo mode c false)
  | _ => none

/-- The updater receives its answer. -/
def onReceive (w : World) : Option World :=
  match w.slot with
  | some q =>
    match q.phase with
    | .answered ok => { w with slot := none }.proceed mode ok
    | _ => none
  | none => none

/-- The slot after the updater stops waiting: only work under way goes on. -/
def orphaned : Option Request → Option Request
  | some q => if q.phase = .running then some { q with orphan := true } else none
  | none => none

/-- The updater stops waiting. -/
def onAbandon (w : World) : Option World :=
  if w.ctxDone then { w with slot := orphaned w.slot }.proceed mode false else none

/-- The engine's loop ends, between requests. -/
def onDie (w : World) : Option World :=
  match w.slot with
  | some q => if q.phase =
    .running then none else some { w with eng := { w.eng with alive := false } }
  | none => some { w with eng := { w.eng with alive := false } }

/-- One step of the updater and its surroundings. -/
def step (w : World) : Label → Option World
  | .view v => onView sha256 mode w v
  | .save out => onSave mode w out
  | .skip => onSkip w
  | .attempt => onAttempt mode w
  | .job i => onJob mode w i
  | .tick => if w.pc = .select then some { w with pc := .top } else none
  | .result res => onResult mode w res
  | .stop => onStop w
  | .cancel => some { w with ctxDone := true }
  | .begin_ => onBegin w
  | .refuse => onRefuse w
  | .grant v fails => onGrant sha256 accepts w v fails
  | .receive => onReceive mode w
  | .abandon => onAbandon mode w
  | .die => onDie w

/-- What `checkLeap` of the engine decides on a candidate, beside the armed leap. -/
def engineAccepts (anchor : Option Object) (o : Object) (now : ℤ) : Bool :=
  decide (checkUpdate sha256 anchor (some o) now = .ok ())

/-- An event in the life of the daemon: a step, or a crash followed by a restart. -/
inductive Event where
  | step (l : Label)
  | restart

/-- A daemon that restarts from what its disk holds, if that loads. -/
def daemonStep (w : World) : Event → Option World
  | .step l => step sha256 accepts mode w l
  | .restart =>
    match loadState sha256 (some (encode sha256 w.disk)) with
    | .ok s => some { World.start s with saves := w.saves }
    | .error _ => none

end

end Carillon.Leap
