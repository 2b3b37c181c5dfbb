/-
# The NMEA reference clock: sentences, their era and the window of offsets

`refclock/nmea.go`: the serial text is cut into sentences, each stamped with the clock
when its first byte was read; a time sentence that is in sequence adds its offset to a
window, whose median is the estimate.  A turn of `Run` is given by what the environment
decides: the bytes read, the readings of the clocks and of the epoch.  What only the
status display reads is left out: the counters, the last error, the fix and the lag
behind the pulse.
-/
import Carillon.Refclock.Pps
import Carillon.Refclock.Sentence

namespace Carillon.Refclock

open Discipline (Measurement Name)
open Source (log2Seconds)

/-! ## State -/

/-- `NMEAConfig`, with the precision of the clock. -/
structure NmeaConfig (K : Type) where
  name : Name
  offset : K
  sentences : List SentenceKind
  /-- `BuildTime`, zero when it is not known. -/
  buildTime : ℤ
  precision : ℤ

/-- `NMEA`, the state of the `Run` goroutine.  Instants that are not set are zero. -/
structure Nmea (K : Type) where
  reach : UInt8
  offsets : List K
  line : Bytes
  lineWall : ℤ
  lineMono : K
  lineGen : ℕ
  eraCandidate : ℤ
  eraCount : ℕ
  /-- The next measurement takes the estimate back. -/
  pendingInvalidate : Bool
  haveLine : Bool
  haveSlot : Bool
  slotAt : K
  lastStamp : ℤ
  lastZDASeen : K
  /-- Not in the source and read by nothing: the window has been reset, and no valid
  measurement has been built since. -/
  revoked : Bool
  /-- Not in the source and read by nothing: the window has been reset, and no measurement
  has been emitted since. -/
  unsaid : Bool

/-- `nmeaPoll`. -/
def nmeaPoll : ℤ := 4

/-- `nmeaWindow`. -/
def nmeaWindow : ℕ := 16

/-- `nmeaEraJump`, the largest step between two sentences of one era. -/
def nmeaEraJump : ℤ := hour

/-- `nmeaEraConfirm`: the sentences in a row that establish another era. -/
def nmeaEraConfirm : ℕ := 4

variable {K : Type}

/-- `accepts`. -/
def NmeaConfig.accepts (cfg : NmeaConfig K) (kind : SentenceKind) : Bool :=
  decide (kind ∈ cfg.sentences)

section Window

/-- `resetWindow`. -/
def Nmea.resetWindow (n : Nmea K) : Nmea K :=
  { n with
    pendingInvalidate := true
    lastStamp := 0
    eraCandidate := 0
    eraCount := 0
    offsets := []
    revoked := true
    unsaid := true }

/-- `staleWindow`: nothing is revoked while the window is empty. -/
def Nmea.staleWindow (n : Nmea K) : Nmea K := if n.offsets = [] then n else n.resetWindow

/-- `discardChunk`. -/
def Nmea.discardChunk (n : Nmea K) : Nmea K := { n with haveLine := false }.resetWindow

/-- What `reopen` does to the state once the device is open again. -/
def Nmea.reopened (n : Nmea K) : Nmea K :=
  { n with reach := 0, haveLine := false, haveSlot := false }.resetWindow

/-- `appendValue`. -/
def appendValue (values : List K) (v : K) : List K :=
  if values.length = nmeaWindow then values.tail ++ [v] else values ++ [v]

end Window

/-! ## Chronology -/

/-- A later instant, and by no more than `nmeaEraJump`. -/
def inSequence (last stamp : ℤ) : Bool :=
  decide (last < stamp) && decide (sub stamp last ≤ nmeaEraJump)

/-- `noteEra`: the evidence for an era that the last accepted sentence is not of, and
whether it is enough. -/
def Nmea.noteEra (n : Nmea K) (stamp : ℤ) : Nmea K × Bool :=
  let consistent := decide (n.eraCandidate ≠ 0) && inSequence n.eraCandidate stamp
  let count := if consistent then n.eraCount + 1 else 1
  ({ n with eraCount := count, eraCandidate := stamp }, decide (nmeaEraConfirm ≤ count))

/-- `chronologyOK`. -/
def Nmea.chronologyOK (n : Nmea K) (stamp : ℤ) : Nmea K × Bool :=
  if n.lastStamp = 0 then (n, true)
  else if inSequence n.lastStamp stamp then ({ n with eraCandidate := 0, eraCount := 0 }, true)
  else
    let (n, established) := n.noteEra stamp
    if established then (n.staleWindow, true) else (n, false)

/-! ## Measurements -/

variable [Field K]

/-- A new state of the source. -/
def Nmea.new : Nmea K where
  reach := 0
  offsets := []
  line := []
  lineWall := 0
  lineMono := 0
  lineGen := 0
  eraCandidate := 0
  eraCount := 0
  pendingInvalidate := false
  haveLine := false
  haveSlot := false
  slotAt := 0
  lastStamp := 0
  lastZDASeen := 0
  revoked := false
  unsaid := false

/-- `deviceLost`. -/
def Nmea.deviceLost (n : Nmea K) : Nmea K :=
  { n with reach := 0, haveLine := false, haveSlot := false, lastZDASeen := 0 }.resetWindow

/-- `emptyMeasurement`, with the readings of the monotonic clock and of the epoch. -/
def Nmea.emptyMeasurement (cfg : NmeaConfig K) (n : Nmea K) (now : K) (gen : ℕ) :
    Measurement K where
  source := cfg.name
  now := now
  reach := n.reach
  poll := nmeaPoll
  generation := gen
  valid := false
  acquired := false
  leapSample := false
  leapValue := .none
  leapObserved := 0
  invalidate := false
  at_ := 0
  offset := 0
  delay := 0
  dispersion := 0
  jitter := 0
  leap := .none
  stratum := 0
  refID := default
  rootDelay := 0
  rootDisp := 0
  precision := 0
  refTime := 0
  sourceRefID := default

variable [LinearOrder K]

/-- The end of `acceptLine`: the offset joins the window, and the window's median is
reported. -/
def Nmea.join (cfg : NmeaConfig K) (n : Nmea K) (stamp : ℤ) (mono offset : K) :
    Nmea K × Measurement K :=
  let offsets := appendValue n.offsets offset
  let (median, mad) := medianMAD offsets
  let sigma := mad * (14826 / 10000)
  let precision : K := log2Seconds cfg.precision
  let valid := decide (4 ≤ offsets.length)
  ({ n with
      lastStamp := stamp
      eraCandidate := 0
      eraCount := 0
      offsets := offsets
      revoked := n.revoked && !valid },
    { n.emptyMeasurement cfg mono n.lineGen with
      acquired := true
      valid := valid
      at_ := mono
      offset := median
      dispersion := sigma + precision
      jitter := max sigma precision
      refID := Ntp.refIDFromString "GPS"
      sourceRefID := Ntp.refIDFromString "GPS"
      precision := cfg.precision
      refTime := stamp })

/-! ## Sentences -/

/-- The checks of a sentence by itself: the instant of a time sentence that may be
used. -/
def Nmea.screen (cfg : NmeaConfig K) (n : Nmea K) (line : Bytes) (mono : K) :
    Nmea K × Option ℤ :=
  if sentenceKind line ∉ ["RMC", "ZDA", "GGA"].map ascii then (n, none)
  else match parseNMEA line with
    | .error _ => (n, none)
    | .ok s =>
      if s.kind = .gga then (n, none)
      else if !cfg.accepts s.kind || !s.valid then (n, none)
      else if s.fractional then (n, none)
      else if cfg.buildTime ≠ 0 ∧ s.timestamp < midnight (dateOf cfg.buildTime) then (n, none)
      else if s.kind = .zda then ({ n with lastZDASeen := mono }, some s.timestamp)
      -- a receiver that sends both sentences is followed by one of them
      else if cfg.accepts .zda ∧ n.lastZDASeen ≠ 0 ∧ mono - n.lastZDASeen < 5 / 2 then (n, none)
      else (n, some s.timestamp)

variable [FloorRing K]

/-- `noteArrival`. -/
def Nmea.noteArrival (n : Nmea K) (now : K) : Nmea K :=
  if n.haveSlot then
    let slots := ⌊now - n.slotAt + 1 / 2⌋
    if slots < 1 then { n with reach := n.reach ||| 1 }
    else
      let n := if reachBits ≤ slots then n.staleWindow else n
      { n with reach := shiftReach n.reach slots.toNat ||| 1, slotAt := now }
  else { n with reach := 1, haveSlot := true, slotAt := now }

/-- The second half of `acceptLine`, for a sentence of the right era: its epoch, the
range of its offset, and its place in the window. -/
def Nmea.enter (cfg : NmeaConfig K) (n : Nmea K) (stamp : ℤ) (gen : ℕ) :
    Nmea K × Option (Measurement K) :=
  if n.lineGen ≠ 0 ∧ gen ≠ n.lineGen then (n.resetWindow, none)
  else
    let lag := sub stamp n.lineWall
    if lag = maxDuration ∨ lag = -2 ^ 63 then (n, none)
    else
      let (n, m) := (n.noteArrival n.lineMono).join cfg stamp n.lineMono
        ((lag : K) / 1000000000 + cfg.offset)
      (n, some m)

/-- `acceptLine`, where the epoch now reads `gen`. -/
def Nmea.acceptLine (cfg : NmeaConfig K) (n : Nmea K) (gen : ℕ) :
    Nmea K × Option (Measurement K) :=
  match n.screen cfg n.line n.lineMono with
  | (n, none) => (n, none)
  | (n, some stamp) =>
    let (n, ok) := n.chronologyOK stamp
    if ok then n.enter cfg stamp gen else (n, none)

/-! ## Chunks -/

/-- What the handling of a read knows: the clocks and the epoch when it returned. -/
structure Arrival (K : Type) where
  wall : ℤ
  mono : K
  gen : ℕ

/-- The body of `consume`'s loop: one byte, with what the epoch reads if it ends a
sentence. -/
def Nmea.consumeByte (cfg : NmeaConfig K) (a : Arrival K) (n : Nmea K) (b : UInt8) (gen : ℕ) :
    Nmea K × Option (Measurement K) :=
  if b = 0x24 then
    ({ n with line := [b], lineWall := a.wall, lineMono := a.mono, haveLine := true,
              lineGen := a.gen }, none)
  else if !n.haveLine then (n, none)
  else if b = 0x0A ∨ b = 0x0D then
    let (n, m) := if n.line ≠ [] then n.acceptLine cfg gen else (n, none)
    ({ n with haveLine := false }, m)
  else if maxNMEALine ≤ n.line.length then ({ n with haveLine := false }, none)
  else ({ n with line := n.line ++ [b] }, none)

/-- `consume`: the measurements of a chunk, all built before any is emitted. -/
def Nmea.consume (cfg : NmeaConfig K) (a : Arrival K) :
    Nmea K → List (UInt8 × ℕ) → Nmea K × List (Measurement K)
  | n, [] => (n, [])
  | n, (b, gen) :: rest =>
    let (n, m) := n.consumeByte cfg a b gen
    let (n, out) := n.consume cfg a rest
    (n, m.toList ++ out)

omit [Field K] [LinearOrder K] [FloorRing K] in
/-- `emit`. -/
def Nmea.emit (n : Nmea K) (m : Measurement K) : Nmea K × Measurement K :=
  if n.pendingInvalidate then
    ({ n with pendingInvalidate := false, unsaid := false }, { m with invalidate := true })
  else ({ n with unsaid := false }, m)

omit [Field K] [LinearOrder K] [FloorRing K] in
/-- `emit` for one measurement after the other. -/
def Nmea.emitAll : Nmea K → List (Measurement K) → Nmea K × List (Measurement K)
  | n, [] => (n, [])
  | n, m :: rest =>
    let (n, m) := n.emit m
    let (n, out) := n.emitAll rest
    (n, m :: out)

/-! ## Turns -/

/-- `tick`: the slots that went by without a sentence, and whether to report them. -/
def Nmea.tick (n : Nmea K) (now : K) : Nmea K × Bool :=
  if n.haveSlot then
    let slots := ⌊now - n.slotAt - 1 / 2⌋
    if slots < 1 then (n, false)
    else
      let n := { n with reach := shiftReach n.reach slots.toNat, slotAt := n.slotAt + slots }
      (if n.reach = 0 then n.staleWindow else n, true)
  else ({ n with haveSlot := true, slotAt := now }, false)

/-- A tick, with what its measurement reads. -/
def Nmea.onTick (cfg : NmeaConfig K) (n : Nmea K) (mono now : K) (gen : ℕ) :
    Nmea K × List (Measurement K) :=
  let (n, due) := n.tick mono
  n.emitAll (if due then [n.emptyMeasurement cfg now gen] else [])

/-- What a turn of `Run` finds. -/
inductive NmeaTurn (K : Type) where
  /-- A reset that the engine has asked for. -/
  | reset
  /-- A read returned bytes; `after` is the epoch after the clocks were read, and `now`
  and `gen` are what the measurement of the tick reads. -/
  | read (data : List (UInt8 × ℕ)) (a : Arrival K) (after : ℕ) (now : K) (gen : ℕ)
  | timeout (mono now : K) (gen : ℕ)
  | lost (now : K) (gen : ℕ)
  | reopened

/-- A turn of `Run`, and the measurements it emits. -/
def Nmea.turn (cfg : NmeaConfig K) (n : Nmea K) : NmeaTurn K → Nmea K × List (Measurement K)
  | .reset => (n.resetWindow, [])
  | .read data a after now gen =>
    if after ≠ a.gen ∨ a.gen % 2 = 1 then (n.discardChunk, [])
    else
      let (n, built) := n.consume cfg a data
      let (n, out) := n.emitAll built
      let (n, ticked) := n.onTick cfg a.mono now gen
      (n, out ++ ticked)
  | .timeout mono now gen => n.onTick cfg mono now gen
  | .lost now gen => n.deviceLost.emitAll [n.deviceLost.emptyMeasurement cfg now gen]
  | .reopened => (n.reopened, [])

end Carillon.Refclock
