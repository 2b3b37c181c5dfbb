/-
# The PPS reference clock: pulses, their window and its median

`refclock/pps.go`: an edge is checked against the sequence counter and the interval
since the last one, then against a line through the recent offsets, and enters a window;
every 2^poll pulse slots the window's median is the estimate.  A pulse is given by the
kernel's timestamp and counter, together with the readings of the monotonic clock that
the handling makes.  What only the status display reads is left out: the intervals'
jitter and the counters.
-/
import Carillon.Source.Ntp

namespace Carillon.Refclock

open Discipline (Measurement Name)
open Source (adaptPoll log2Seconds)

/-! ## State -/

/-- `PPSConfig`, with the precision of the clock. -/
structure PpsConfig (K : Type) where
  name : Name
  offset : K
  lockJitter : K
  pollMin : ℤ
  pollMax : ℤ
  maxSlewPPM : K
  /-- There is an epoch to read, `Generation`. -/
  stamps : Bool
  precision : ℤ

/-- `pps.Sample`, with the monotonic clock when the edge is accepted and when the
measurement is emitted. -/
structure Pulse (K : Type) where
  sequence : UInt32
  time : ℤ
  at_ : K
  now : K

/-- `PPS`, the state of the `Run` goroutine.  `previous` is the last edge's counter and
timestamp (`havePrevious`, `previousSeq` and `previousTime`). -/
structure Pps (K : Type) where
  reach : UInt8
  poll : ℤ
  window : List K
  windowSeq : List UInt32
  slots : ℕ
  pendingMisses : ℕ
  previous : Option (UInt32 × ℤ)
  stable : Bool
  rejectRun : ℕ
  /-- The next measurement takes the estimate back. -/
  pendingInvalidate : Bool
  /-- Not in the source and read by nothing: the window has been reset, and no valid
  measurement has been built since. -/
  revoked : Bool
  /-- Not in the source and read by nothing: the window has been reset, and no measurement
  has been emitted since. -/
  unsaid : Bool

/-- `spikeFitMin` and `spikeFitMax`: how many offsets the trend line is drawn through. -/
def spikeFitMin : ℕ := 4
@[inherit_doc spikeFitMin]
def spikeFitMax : ℕ := 8

/-- `spikeSlewPulses`, the most missed pulses the gate grants a slew for. -/
def spikeSlewPulses : ℤ := 8

/-- `maxSequenceGap`: a larger jump of the counter is a restart of the device. -/
def maxSequenceGap : UInt32 := 3600

/-- `spikeResetAfter`, the rejections in a row that empty the window. -/
def spikeResetAfter : ℕ := 4

/-- `reachBits`. -/
def reachBits : ℕ := 8

/-- `shiftReach`. -/
def shiftReach (reach : UInt8) (n : ℕ) : UInt8 :=
  if reachBits ≤ n then 0 else reach <<< UInt8.ofNat n

variable {K : Type}

/-- `newPPS`. -/
def Pps.new (cfg : PpsConfig K) : Pps K where
  reach := 0
  poll := cfg.pollMin
  window := []
  windowSeq := []
  slots := 0
  pendingMisses := 0
  previous := none
  stable := false
  rejectRun := 0
  pendingInvalidate := false
  revoked := false
  unsaid := false

/-- `resetWindow`. -/
def Pps.resetWindow (p : Pps K) : Pps K :=
  { p with
    pendingInvalidate := true
    window := []
    windowSeq := []
    slots := 0
    stable := false
    rejectRun := 0
    revoked := true
    unsaid := true }

/-- `reject`: a run of rejections gives the window up. -/
def Pps.reject (p : Pps K) : Pps K :=
  let p := { p with reach := p.reach <<< 1, rejectRun := p.rejectRun + 1 }
  if spikeResetAfter ≤ p.rejectRun then p.resetWindow else p

/-- `accountSequence`: the pulses that were missed and not yet counted as timeouts. -/
def Pps.accountSequence (p : Pps K) (s : Pulse K) (delta : UInt32) : Pps K :=
  let additional := delta.toNat - 1 - p.pendingMisses
  { p with
    reach := if 0 < additional then shiftReach p.reach additional else p.reach
    slots := p.slots + additional + 1
    pendingMisses := 0
    previous := some (s.sequence, s.time) }

/-- `sequenceRestart`. -/
def Pps.sequenceRestart (p : Pps K) (s : Pulse K) : Pps K :=
  { { p with pendingMisses := 0 }.resetWindow with previous := some (s.sequence, s.time) }

/-- `appendWindow`. -/
def Pps.appendWindow (cfg : PpsConfig K) (p : Pps K) (seq : UInt32) (v : K) : Pps K :=
  if p.window.length = 2 ^ cfg.pollMax.toNat then
    { p with window := p.window.tail ++ [v], windowSeq := p.windowSeq.tail ++ [seq] }
  else { p with window := p.window ++ [v], windowSeq := p.windowSeq ++ [seq] }

/-- `windowTail`. -/
def windowTail (window : List K) (n : ℕ) : List K := window.drop (window.length - n)

/-! ## Medians -/

variable [Field K] [LinearOrder K]

/-- `middle`, of sorted values. -/
def middle (v : List K) : K :=
  if v.length % 2 = 1 then v.getD (v.length / 2) 0
  else (v.getD (v.length / 2 - 1) 0 + v.getD (v.length / 2) 0) / 2

/-- `medianMAD`: the median and the median absolute deviation from it. -/
def medianMAD (values : List K) : K × K :=
  if values = [] then (0, 0)
  else
    let median := middle (values.insertionSort (· ≤ ·))
    (median, middle ((values.map fun v => |v - median|).insertionSort (· ≤ ·)))

/-- `edgeOffset`: the offset that puts the edge on the nearest second. -/
def edgeOffset (t : ℤ) : K :=
  let frac : K := ((t % second : ℤ) : K) / 1000000000
  if frac < 1 / 2 then -frac else 1 - frac

/-- `ppsWindowStable`. -/
def ppsWindowStable (wasStable : Bool) (samples : ℕ) (sigma limit : K) : Bool :=
  if samples < 4 then false
  else if wasStable then decide (sigma ≤ 4 * limit) else decide (sigma < limit)

/-! ## Edges -/

/-- `spikeGate`: where the line through the recent offsets puts this edge, and how far
from it the edge may be; none while there are too few offsets. -/
def Pps.spikeGate (cfg : PpsConfig K) (p : Pps K) (seq : UInt32) : Option (K × K) :=
  let points := windowTail (p.windowSeq.zip p.window) spikeFitMax
  match p.windowSeq.getLast? with
  | none => none
  | some last =>
    let at_ (s : UInt32) : ℤ := (s - last).toBitVec.toInt
    let xys := points.map fun q => ((at_ q.1 : K), q.2)
    let n : K := xys.length
    let sx := (xys.map (·.1)).sum
    let sy := (xys.map (·.2)).sum
    let sxx := (xys.map fun q => q.1 * q.1).sum
    let sxy := (xys.map fun q => q.1 * q.2).sum
    let den := n * sxx - sx * sx
    if xys.length < spikeFitMin ∨ den = 0 then none
    else
      let slope := (n * sxy - sx * sy) / den
      let intercept := (sy - slope * sx) / n
      let mad := (medianMAD (xys.map fun q => q.2 - (intercept + slope * q.1))).2
      let ahead := max 1 (min spikeSlewPulses (at_ seq))
      some (intercept + slope * at_ seq,
        max (5 * mad) (1 / 1000000) + cfg.maxSlewPPM * (1 / 1000000) * ahead)

/-- The checks of the counter and of the interval since the previous edge. -/
def Pps.checkSequence (p : Pps K) (s : Pulse K) : Pps K × Bool :=
  if s.sequence = 0 ∨ s.time = 0 then (p.reject, false)
  else match p.previous with
    | none => (p.accountSequence s 1, true)
    | some (seq, time) =>
      let delta := s.sequence - seq
      if delta = 0 then (p.reject, false)
      else if maxSequenceGap < delta then ((p.sequenceRestart s).reject, false)
      else
        let interval : K := ((sub s.time time : ℤ) : K) / 1000000000
        if 1 / 10 < |interval - delta.toNat| then ((p.accountSequence s delta).reject, false)
        else (p.accountSequence s delta, true)

/-- All checks of an edge. -/
def Pps.screen (cfg : PpsConfig K) (p : Pps K) (s : Pulse K) : Pps K × Bool :=
  let (p, sound) := p.checkSequence s
  if sound then
    if (p.spikeGate cfg s.sequence).any fun g => decide (g.2 < |edgeOffset s.time - g.1|) then
      (p.reject, false)
    else (p, true)
  else (p, false)

/-- `emptyMeasurement`, whose reach, poll and time `emit` fills in. -/
def emptyMeasurement (cfg : PpsConfig K) : Measurement K where
  source := cfg.name
  now := 0
  reach := 0
  poll := 0
  generation := 0
  valid := false
  acquired := false
  leapSample := false
  leapValue := .none
  leapObserved := 0
  invalidate := false
  at_ := 0
  offset := 0
  delay := 0
  dispersion := 0
  jitter := 0
  leap := .none
  stratum := 0
  refID := default
  rootDelay := 0
  rootDisp := 0
  precision := 0
  refTime := 0
  sourceRefID := default

/-- The estimate from a window's tail: its median, and the deviation as a jitter. -/
def windowEstimate (cfg : PpsConfig K) (values : List K) : K × K :=
  let (median, mad) := medianMAD values
  (median + cfg.offset, max (mad * (14826 / 10000)) (log2Seconds cfg.precision))

/-- The end of `accept`: the window's estimate, when its slots are full. -/
def Pps.evaluate (cfg : PpsConfig K) (p : Pps K) (s : Pulse K) : Pps K × Measurement K :=
  let m := { emptyMeasurement cfg with acquired := true }
  if p.slots < 2 ^ p.poll.toNat then (p, m)
  else
    let values := windowTail p.window (2 ^ p.poll.toNat)
    let (offset, jitter) := windowEstimate cfg values
    let sigma := (medianMAD values).2 * (14826 / 10000)
    let stable := ppsWindowStable p.stable values.length sigma cfg.lockJitter
    ({ p with
        slots := 0
        stable := stable
        poll := adaptPoll p.poll offset jitter cfg.pollMin cfg.pollMax
        revoked := p.revoked && !stable },
      { m with
        valid := stable
        invalidate := !stable
        at_ := s.at_
        offset := offset
        dispersion := sigma + log2Seconds cfg.precision
        jitter := jitter
        refID := Ntp.refIDFromString "PPS"
        sourceRefID := Ntp.refIDFromString "PPS"
        precision := cfg.precision
        refTime := s.time })

/-- `accept`, after the reset the engine may have asked for. -/
def Pps.accept (cfg : PpsConfig K) (p : Pps K) (s : Pulse K) : Pps K × Measurement K :=
  let (p, passed) := p.screen cfg s
  if passed then
    { p with rejectRun := 0, reach := p.reach <<< 1 ||| 1 }.appendWindow cfg s.sequence
      (edgeOffset s.time) |>.evaluate cfg s
  else (p, emptyMeasurement cfg)

omit [Field K] [LinearOrder K] in
/-- `emit`, the measurement before its epoch is filled in. -/
def Pps.emit (p : Pps K) (m : Measurement K) (now : K) : Pps K × Measurement K :=
  ({ p with pendingInvalidate := false, unsaid := false },
    { m with
      now := now
      reach := p.reach
      poll := p.poll
      invalidate := m.invalidate || p.pendingInvalidate })

/-! ## Fetches without an edge -/

/-- What else happens to the clock. -/
inductive PpsEvent (K : Type) where
  | timeout (now : K)
  | deviceLost (now : K)
  | reopened

omit [Field K] [LinearOrder K] in
/-- `timeout`. -/
def Pps.timeout (p : Pps K) : Pps K :=
  let p := { p with
    reach := p.reach <<< 1
    pendingMisses := p.pendingMisses + 1
    slots := p.slots + 1 }
  if p.reach = 0 then p.resetWindow else p

omit [Field K] [LinearOrder K] in
/-- `deviceLost`, and what `reopen` does to the window. -/
def Pps.deviceLost (p : Pps K) : Pps K :=
  { p with reach := 0, pendingMisses := 0, previous := none }.resetWindow

/-! ## Turns -/

/-- What a turn of the `Run` loop finds; a measurement reads the clock at `now` and the
epoch `gen`. -/
inductive PpsTurn (K : Type) where
  /-- A reset that the engine has asked for, taken at the top of the loop or by
  `accept`. -/
  | reset
  /-- An edge of a settled epoch. -/
  | pulse (s : Pulse K) (gen : ℕ)
  /-- An edge that spans a change of the epoch. -/
  | discard (now : K) (gen : ℕ)
  | timeout (now : K) (gen : ℕ)
  | lost (now : K) (gen : ℕ)
  | reopened

/-- A turn of `Run`, and the measurements it emits. -/
def Pps.turn (cfg : PpsConfig K) (p : Pps K) : PpsTurn K → Pps K × List (Measurement K)
  | .reset => (p.resetWindow, [])
  | .pulse s gen =>
    let (p, m) := p.accept cfg s
    let (p, m) := p.emit m s.now
    (p, [{ m with generation := gen }])
  | .discard now gen =>
    let (p, m) := p.resetWindow.emit (emptyMeasurement cfg) now
    (p, [{ m with generation := gen }])
  | .timeout now gen =>
    let (p, m) := p.timeout.emit (emptyMeasurement cfg) now
    (p, [{ m with generation := gen }])
  | .lost now gen =>
    let (p, m) := p.deviceLost.emit (emptyMeasurement cfg) now
    (p, [{ m with generation := gen }])
  | .reopened => ({ p with reach := 0, pendingMisses := 0, previous := none }.resetWindow, [])

end Carillon.Refclock
