/-
# The NTP source: one server's replies and its clock filter

`source/ntp.go`, `source/poll.go`: what the poller keeps between polls, and what it
does with a reply, a kiss or a poll without a reply.  The packet itself (which is in
`Source/Exchange`), the choice of the address and the waiting between polls are not part
of this: an exchange is given by the values that `hit` reads from it, together with the
readings of the monotonic clock that the poll makes.
-/
import Carillon.Discipline.Filter
import Carillon.Time

namespace Carillon.Source

open Discipline (HasSqrt Measurement Name Output filterStages phi)
open Carillon.Ntp (RefID)

variable {K : Type}

/-! ## Polls -/

/-- `clampPoll`. -/
def clampPoll (poll min max : ℤ) : ℤ :=
  if poll < min then min else if max < poll then max else poll

/-- `adaptPoll`: the interval grows while the offset is within four times the jitter. -/
def adaptPoll [Field K] [LinearOrder K] (poll : ℤ) (offset jitter : K) (min max : ℤ) : ℤ :=
  clampPoll (if |offset| < 4 * jitter then poll + 1 else poll - 1) min max

/-- `maxRemoteBackoffPoll`. -/
def maxRemoteBackoffPoll : ℤ := 13

/-- `unreachableBackoff`: misses after which an unreachable server is polled less. -/
def unreachableBackoff : ℕ := 10

/-- `ntp.Log2Seconds`. -/
def log2Seconds [Field K] (exp : ℤ) : K := 2 ^ exp

/-- `clampPrecision`. -/
def clampPrecision (p : ℤ) : ℤ := if 0 < p then 0 else if p < -30 then -30 else p

/-! ## State -/

/-- `NTPConfig`, with the precision of the clock. -/
structure NtpConfig where
  name : Name
  pollMin : ℤ
  pollMax : ℤ
  /-- There is an epoch to read, `Generation`. -/
  stamps : Bool
  precision : ℤ

/-- `stageMeta`: what the server said about itself in one exchange. -/
structure StageMeta (K : Type) where
  at_ : K
  stratum : ℕ
  refID : RefID
  rootDelay : K
  rootDisp : K
  precision : ℤ
  leap : Ntp.Leap
  refTime : ℤ

/-- A reply that passed `exchange`: its timestamps, the offset and delay computed from
them, and the fields of the packet; the monotonic clock when it is filtered and when the
measurement is emitted. -/
structure Exchange (K : Type) where
  offset : K
  delay : K
  t1 : ℤ
  t4 : ℤ
  stratum : ℕ
  refID : RefID
  rootDelay : K
  rootDisp : K
  precision : ℤ
  leap : Ntp.Leap
  refTime : ℤ
  at_ : K
  now : K

/-- `NTP`, the poller's state.  `lastStratum` is none until the server has answered
(`haveStratum`); `peer` is the reference identifier of the address in use. -/
structure Ntp (K : Type) where
  filter : Discipline.Filter K
  reach : UInt8
  poll : ℤ
  consecutiveTimeouts : ℕ
  consecutiveMisses : ℕ
  denied : Bool
  kodMinPoll : ℤ
  effPollMax : ℤ
  stageMeta : List (StageMeta K)
  metaNext : ℕ
  lastStratum : Option ℕ
  liveLeap : Ntp.Leap
  liveLeapAt : K
  peer : RefID

/-- `sample`: the filter's estimate with the metadata of the exchange it rests on. -/
structure Sample (K : Type) where
  out : Output K
  stage : StageMeta K

/-- `NewNTP`. -/
def Ntp.new [Field K] (cfg : NtpConfig) (peer : RefID) : Ntp K where
  filter := .new (log2Seconds cfg.precision)
  reach := 0
  poll := cfg.pollMin
  consecutiveTimeouts := 0
  consecutiveMisses := 0
  denied := false
  kodMinPoll := 0
  effPollMax := cfg.pollMax
  stageMeta := []
  metaNext := 0
  lastStratum := none
  liveLeap := .none
  liveLeapAt := 0
  peer := peer

/-! ## Replies -/

/-- `pollFloor`. -/
def Ntp.pollFloor (cfg : NtpConfig) (n : Ntp K) : ℤ := max cfg.pollMin n.kodMinPoll

/-- `noteMeta`. -/
def Ntp.noteMeta (n : Ntp K) (s : StageMeta K) : Ntp K :=
  if n.stageMeta.length < filterStages then { n with stageMeta := n.stageMeta ++ [s] }
  else
    { n with
      stageMeta := n.stageMeta.set n.metaNext s
      metaNext := (n.metaNext + 1) % filterStages }

/-- `metaAt`. -/
def Ntp.metaAt [DecidableEq K] (n : Ntp K) (t : K) : Option (StageMeta K) :=
  n.stageMeta.find? (·.at_ = t)

/-- The metadata of an exchange. -/
def Exchange.meta_ (x : Exchange K) : StageMeta K :=
  ⟨x.at_, x.stratum, x.refID, x.rootDelay, x.rootDisp, x.precision, x.leap, x.refTime⟩

variable [Field K]

/-- The reset that `hit` makes when the engine has asked for one. -/
def Ntp.reset (n : Ntp K) : Ntp K := { n with filter := n.filter.reset }

/-- The dispersion a reply enters the filter with. -/
def Exchange.disp (cfg : NtpConfig) (x : Exchange K) : K :=
  log2Seconds cfg.precision + log2Seconds (clampPrecision x.precision) +
    phi * ((sub x.t4 x.t1 : ℤ) / 1000000000)

/-- `hit` before the filter: the reply counts as reached, and a server that changes its
stratum starts the filter over. -/
def Ntp.receive (cfg : NtpConfig) (n : Ntp K) (x : Exchange K) : Ntp K :=
  let changed := n.lastStratum.any (· ≠ x.stratum)
  { n with
    reach := n.reach <<< 1 ||| 1
    poll := if n.reach = 0 then n.pollFloor cfg else n.poll
    consecutiveTimeouts := 0
    consecutiveMisses := 0
    filter := if changed then n.filter.reset else n.filter
    stageMeta := if changed then [] else n.stageMeta
    metaNext := if changed then 0 else n.metaNext
    lastStratum := some x.stratum
    liveLeap := x.leap
    liveLeapAt := x.at_ }.noteMeta x.meta_

variable [LinearOrder K] [HasSqrt K]

/-- A reply enters the filter. -/
def Exchange.enter (cfg : NtpConfig) (x : Exchange K) (f : Discipline.Filter K) :
    Discipline.Filter K × Output K × Bool :=
  f.add x.offset x.delay (x.disp cfg) x.at_

/-- `hit`, after the reset the engine may have asked for. -/
def Ntp.hit (cfg : NtpConfig) (n : Ntp K) (x : Exchange K) : Ntp K × Option (Sample K) :=
  let n := n.receive cfg x
  let (filter, out, updated) := x.enter cfg n.filter
  let n := { n with filter := filter }
  if updated then
    let n := { n with
      poll := adaptPoll n.poll out.offset out.jitter (n.pollFloor cfg) n.effPollMax }
    (n, some ⟨out, (n.metaAt out.at_).getD { x.meta_ with at_ := out.at_ }⟩)
  else (n, none)

omit [LinearOrder K] [HasSqrt K]

/-- `emit`, the measurement before its epoch is filled in. -/
def Ntp.emit (cfg : NtpConfig) (n : Ntp K) (s : Option (Sample K)) (acquired : Bool) (now : K) :
    Measurement K :=
  let m : Measurement K :=
    { source := cfg.name
      now := now
      reach := n.reach
      poll := n.poll
      generation := 0
      valid := false
      acquired := acquired
      leapSample := acquired
      leapValue := n.liveLeap
      leapObserved := n.liveLeapAt
      invalidate := false
      at_ := 0
      offset := 0
      delay := 0
      dispersion := 0
      jitter := 0
      leap := .none
      stratum := 0
      refID := default
      rootDelay := 0
      rootDisp := 0
      precision := 0
      refTime := 0
      sourceRefID := default }
  s.elim m fun s =>
    { m with
      valid := true
      at_ := s.out.at_
      offset := s.out.offset
      delay := s.out.delay
      dispersion := s.out.dispersion
      jitter := s.out.jitter
      leap := s.stage.leap
      stratum := s.stage.stratum
      refID := s.stage.refID
      rootDelay := s.stage.rootDelay
      rootDisp := s.stage.rootDisp
      precision := s.stage.precision
      refTime := s.stage.refTime
      sourceRefID := n.peer }

/-! ## Polls without a usable reply -/

/-- `discardStale`. -/
def Ntp.discardStale (n : Ntp K) : Ntp K :=
  { n with reach := n.reach <<< 1 ||| 1, consecutiveTimeouts := 0, consecutiveMisses := 0 }

/-- `miss`. -/
def Ntp.miss (n : Ntp K) : Ntp K :=
  let n := { n with reach := n.reach <<< 1, consecutiveMisses := n.consecutiveMisses + 1 }
  if n.reach = 0 ∧ unreachableBackoff ≤ n.consecutiveMisses ∧ n.poll < n.effPollMax then
    { n with poll := n.poll + 1 }
  else n

/-- `kissError`, a kiss-o'-death by what `handleKiss` does with its code. -/
inductive Kiss where
  /-- RATE, with the poll of the packet. -/
  | rate (poll : ℤ)
  /-- DENY or RSTR. -/
  | deny (authenticated : Bool)
  | other

/-- `handleKiss`. -/
def Ntp.handleKiss (cfg : NtpConfig) (n : Ntp K) : Kiss → Ntp K
  | .rate poll =>
    let want := min (max (n.poll + 1) poll) (max maxRemoteBackoffPoll cfg.pollMax)
    let effPollMax := max n.effPollMax want
    let want := clampPoll want cfg.pollMin effPollMax
    { n with
      effPollMax := effPollMax
      kodMinPoll := max n.kodMinPoll want
      poll := want }.miss
  | .deny true => { { n with denied := true }.miss with reach := 0 }
  | .deny false | .other => n.miss

/-- What else happens to the poller. -/
inductive NtpEvent where
  /-- No reply, or no server at the address: counted toward another address. -/
  | timeout
  /-- A reply that is not used, an error, or a name that does not resolve. -/
  | miss
  | kiss (k : Kiss)
  /-- Another address is used from now on, `resetEndpointState`. -/
  | endpoint (peer : RefID)

/-- The state after an event, and whether a measurement is emitted for it. -/
def Ntp.on (cfg : NtpConfig) (n : Ntp K) : NtpEvent → Ntp K × Bool
  | .timeout => ({ n with consecutiveTimeouts := n.consecutiveTimeouts + 1 }.miss, true)
  | .miss => (n.miss, true)
  | .kiss k => (n.handleKiss cfg k, true)
  | .endpoint peer =>
    ({ n with
        kodMinPoll := 0
        effPollMax := cfg.pollMax
        poll := cfg.pollMin
        stageMeta := []
        metaNext := 0
        lastStratum := none
        filter := n.filter.reset
        peer := peer }, false)

end Carillon.Source
