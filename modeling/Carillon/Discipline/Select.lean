/-
# Selection: which sources are believed, and how they are combined

The intersection, clustering and combining algorithms of `select.go`, with the
PPS qualification and the leap vote.  The code passes pointers around and writes
each source's role into it; here every phase returns the sources it has decided
about, and `selectAt` writes them back by name at the end.
-/
import Carillon.Discipline.Measurement

namespace Carillon.Discipline

open Ntp (RefID)
open HasSqrt (sqrt)

/-- `discipline.State`. -/
inductive State where
  | unsynced
  | settling
  | synced
  | holdover
  deriving DecidableEq, Repr, Inhabited

/-- `discipline.Event`: its kind together with the fields that kind fills. -/
inductive Event (K : Type) where
  | step (value : K)
  | panicRefused (value : K)
  | popcorn (value : K)
  | stateChange (old new : State)
  | falseticker (source : Name) (value : K)
  | truechimer (source : Name) (value : K)
  | preferLost
  | preferRegained
  | systemSource (source : Name)
  | unknownSource (source : Name)
  | ppsUnqualified (source : Name)
  | ppsQualified (source : Name)
  | timingLoop (source : Name)
  | timingLoopCleared (source : Name)

/-- `SelectStatus`, a source's role after the latest selection. -/
inductive SelectStatus where
  | unreachable
  | noSelect
  | invalid
  | unqualified
  | falseticker
  | outlier
  | survivor
  | system
  deriving DecidableEq, Repr, Inhabited

/-- `SourceState`: the latest measurement of a source and what selection made of
it. -/
structure SourceState (K : Type) extends Options where
  name : Name
  reach : UInt8
  poll : ℤ
  valid : Bool
  at_ : K
  updated : K
  offset : K
  delay : K
  dispersion : K
  jitter : K
  leap : Ntp.Leap
  liveLeap : Ntp.Leap
  leapUpdated : K
  leapKnown : Bool
  stratum : ℕ
  refID : RefID
  sourceRefID : RefID
  rootDelay : K
  rootDisp : K
  precision : ℤ
  refTime : ℤ
  status : SelectStatus
  distance : K
  /-- The estimate carried to the instant of the selection. -/
  current : K
  /-- The sample time of the last estimate the loop consumed. -/
  usedAt : K
  stale : Bool
  disagreesWith : Option Name
  disagreement : K
  inLoop : Bool
  everSurvived : Bool
  /-- The valid measurements delivered since the last clock step. -/
  sinceStep : ℕ

variable {K : Type} [Field K] [LinearOrder K]

/-- A source as `AddSource` registers it. -/
def SourceState.fresh (name : Name) (o : Options) : SourceState K where
  toOptions := o
  name := name
  reach := 0
  poll := 0
  valid := false
  at_ := 0
  updated := 0
  offset := 0
  delay := 0
  dispersion := 0
  jitter := 0
  leap := .none
  liveLeap := .none
  leapUpdated := 0
  leapKnown := false
  stratum := 0
  refID := default
  sourceRefID := default
  rootDelay := 0
  rootDisp := 0
  precision := 0
  refTime := 0
  status := .unreachable
  distance := 0
  current := 0
  usedAt := 0
  stale := false
  disagreesWith := none
  disagreement := 0
  inLoop := false
  everSurvived := false
  sinceStep := 0

/-! ## Recording a measurement -/

/-- The leap part of `apply`: an accepted packet's own indicator, or the one that
came with the estimate. -/
def SourceState.applyLeap (s : SourceState K) (m : Measurement K) : SourceState K :=
  if m.isAcquisition && !s.pps && !s.leapIncapable then
    if m.leapSample then
      { s with liveLeap := m.leapValue, leapUpdated := m.leapObserved,
               leapKnown := decide (m.leapValue ≠ .unsync) }
    else if m.valid then
      { s with liveLeap := m.leap, leapUpdated := m.now, leapKnown := decide (m.leap ≠ .unsync) }
    else s
  else s

/-- `SourceState.apply`. -/
def SourceState.apply (s : SourceState K) (m : Measurement K) : SourceState K :=
  let s := { s with reach := m.reach, poll := m.poll }
  let s := if m.invalidate then { s with valid := false, leapKnown := false } else s
  let s := s.applyLeap m
  if m.valid then
    { s with
      valid := true
      sinceStep := s.sinceStep + 1
      at_ := m.at_
      updated := m.now
      offset := m.offset
      delay := m.delay
      dispersion := m.dispersion
      jitter := m.jitter
      leap := m.leap
      stratum := m.stratum
      refID := m.refID
      sourceRefID := m.sourceRefID
      rootDelay := m.rootDelay
      rootDisp := m.rootDisp
      precision := m.precision
      refTime := m.refTime }
  else s

/-- `SourceState.invalidate`: the estimate goes, reachability stays. -/
def SourceState.invalidate (s : SourceState K) : SourceState K :=
  { s with valid := false, leapKnown := false, sinceStep := 0 }

/-! ## Candidates -/

/-- `MinDispersion`, the floor of the delay term. -/
def minDispersion : K := 1 / 1000

/-- `PPSGuard`: how near to true time a numbering source must put the clock. -/
def ppsGuard : K := 2 / 5

/-- `ppsAgreementFloor`. -/
def ppsAgreementFloor : K := 1 / 1000

/-- `ClusterMin`. -/
def clusterMin : ℕ := 3

/-- `SourceState.RootDistance`. -/
def SourceState.rootDistance (s : SourceState K) (now : K) : K :=
  let age := if now - s.updated < 0 then 0 else now - s.updated
  max minDispersion (s.rootDelay + s.delay) / 2 + s.rootDisp + s.dispersion + phi * age + s.jitter

/-- `SourceState.synch`, the sort key of the survivors. -/
def SourceState.synch (s : SourceState K) : K :=
  s.stratum * maxDistance + s.distance

/-- `SourceState.candidate`: `none` when the source may be used, and otherwise
why not. -/
def SourceState.candidate (s : SourceState K) : Option SelectStatus :=
  if s.reach = 0 then some .unreachable
  else if s.noSelect then some .noSelect
  else if s.stale then some .unreachable
  else if !s.valid || decide (s.leap = .unsync) || decide (16 ≤ s.stratum)
      || decide (maxDistance ≤ s.distance) then some .invalid
  else none

/-- `freshnessDeadline`: eight poll intervals, at least 64 s. -/
def freshnessDeadline (poll : ℤ) : K :=
  max 64 (8 * 2 ^ max minPoll (min maxPoll poll))

/-- `timingLoop`: the source is this host, or follows it.  `localRefIDs` are the
identifiers of this host. -/
def timingLoop (s : SourceState K) (localRefIDs : List RefID) : Bool :=
  !localRefIDs.isEmpty &&
    (!s.sourceRefID.isText && localRefIDs.contains s.sourceRefID ||
      decide (1 < s.stratum) && !s.refID.isText && localRefIDs.contains s.refID)

/-- `SelectOptions`. -/
structure SelectOptions (K : Type) where
  localRefIDs : List RefID
  /-- The phase corrected between an observation and now. -/
  appliedSince : K → K → K

/-- A source after the first loop of `SelectAt`. -/
structure Examined (K : Type) where
  source : SourceState K
  usable : Bool
  events : List (Event K)

/-- One pass of the first loop of `SelectAt`: distance, staleness and present-time
estimate, then the fitness test. -/
def SourceState.examine (s : SourceState K) (now : K) (o : SelectOptions K) : Examined K :=
  let s := { s with
    distance := s.rootDistance now
    stale := s.valid && decide (freshnessDeadline s.poll < now - s.updated)
    current := if s.valid then s.offset - o.appliedSince s.at_ now else s.offset
    disagreesWith := if s.pps then none else s.disagreesWith
    disagreement := if s.pps then 0 else s.disagreement }
  let usable := s.candidate.isNone
  if usable && timingLoop s o.localRefIDs then
    { source := { s with inLoop := true, status := .invalid }
      usable := false
      events := if s.inLoop then [] else [.timingLoop s.name] }
  else
    -- a usable PPS source stays unqualified until a numbering source vouches for it
    { source := { s with
        inLoop := false
        status := s.candidate.getD (if s.pps then .unqualified else .survivor) }
      usable := usable
      events := if s.inLoop then [.timingLoopCleared s.name] else [] }

/-! ## Intersection -/

/-- An end point or midpoint of a correctness interval: `t` is -1 at the low end,
0 in the middle and 1 at the high end. -/
structure Edge (K : Type) where
  v : K
  t : ℤ

/-- The order of the edges: by value, low ends first. -/
def Edge.Le (e f : Edge K) : Prop :=
  e.v < f.v ∨ e.v = f.v ∧ e.t ≤ f.t

instance : DecidableRel (Edge.Le (K := K)) :=
  fun e f => inferInstanceAs (Decidable (e.v < f.v ∨ e.v = f.v ∧ e.t ≤ f.t))

/-- The correctness intervals' edges, sorted. -/
def edges (c : List (SourceState K)) : List (Edge K) :=
  (c.flatMap fun s =>
    [⟨s.current - s.distance, -1⟩, ⟨s.current, 0⟩, ⟨s.current + s.distance, 1⟩]).insertionSort
      Edge.Le

/-- One of the two scans of `intersect`: count intervals entered (`sign` -1 from
below, 1 from above) until `need` of them overlap, and the midpoints passed on
the way. -/
def scanEdges (sign need : ℤ) : List (Edge K) → ℤ → ℕ → Option K × ℕ
  | [], _, mids => (none, mids)
  | e :: es, chime, mids =>
    let chime := chime + sign * e.t
    if need ≤ chime then (some e.v, mids)
    else scanEdges sign need es chime (if e.t = 0 then mids + 1 else mids)

/-- The interval that `n - allow` of the sources share, when no more than `allow`
midpoints lie outside it. -/
def overlap (es : List (Edge K)) (n allow : ℕ) : Option (K × K) :=
  let low := scanEdges (-1) (n - allow) es 0 0
  let high := scanEdges 1 (n - allow) es.reverse 0 low.2
  if allow < high.2 then none
  else match low.1, high.1 with
    | some lo, some hi => if lo < hi then some (lo, hi) else none
    | _, _ => none

/-- The interval of `intersect`: the first one found as the number of
falsetickers allowed grows, which stays under half of the sources. -/
def intersection (c : List (SourceState K)) : Option (K × K) :=
  (List.range ((c.length + 1) / 2)).findSome? (overlap (edges c) c.length)

/-- `Low` and `High`, which stay zero when there is no interval. -/
def lowHigh (c : List (SourceState K)) : K × K :=
  (intersection c).getD (0, 0)

/-- The correctness interval of a source meets the interval `i`. -/
def SourceState.overlaps (s : SourceState K) (i : K × K) : Bool :=
  !(decide (s.current + s.distance < i.1) || decide (i.2 < s.current - s.distance))

/-- `intersect`: the truechimers, and the falsetickers it marks. -/
def intersect (c : List (SourceState K)) : List (SourceState K) × List (SourceState K) :=
  match intersection c with
  | none => ([], c.map ({ · with status := .falseticker }))
  | some i =>
    (c.filter (·.overlaps i), (c.filter (!·.overlaps i)).map ({ · with status := .falseticker }))

/-! ## Clustering -/

variable [HasSqrt K]

/-- The selection jitter of the `i`th survivor: the RMS distance of the others
from it. -/
def selectionJitter (surv : List (SourceState K)) (i : ℕ) (s : SourceState K) : K :=
  let others := surv.eraseIdx i
  sqrt ((others.map fun o => (s.current - o.current) * (s.current - o.current)).sum / others.length)

/-- The first survivor of largest selection jitter, found as the code finds it
from the start value -1. -/
def worst (surv : List (SourceState K)) : Option ℕ × K :=
  surv.zipIdx.foldl (fun acc s =>
    let sj := selectionJitter surv s.2 s.1
    if acc.2 < sj then (some s.2, sj) else acc) (none, -1)

/-- `cluster` with at most `fuel` rounds; each discards one survivor, so their
number is enough.  The second list holds the outliers. -/
def clusterRounds : ℕ → List (SourceState K) → List (SourceState K) × List (SourceState K)
  | 0, surv => (surv, [])
  | fuel + 1, surv =>
    if surv.length ≤ clusterMin then (surv, [])
    else match worst surv, (surv.map (·.jitter)).min? with
      | (some i, maxSel), some minJit =>
        if maxSel < minJit then (surv, [])
        else
          let rest := clusterRounds fuel (surv.eraseIdx i)
          (rest.1, (surv[i]?.map ({ · with status := .outlier })).toList ++ rest.2)
      | _, _ => (surv, [])

/-- `cluster`. -/
def cluster (surv : List (SourceState K)) : List (SourceState K) × List (SourceState K) :=
  clusterRounds surv.length surv

/-! ## PPS agreement -/

/-- `ppsAgreement`: whether one of the numbering sources agrees with the PPS
source to within its own uncertainty, and otherwise the closest with its
distance; `closest` is the best one seen so far. -/
def ppsAgreement (p : SourceState K) (now : K) :
    List (SourceState K) → Option (Name × K) → Bool × Option (Name × K)
  | [], closest => (false, closest)
  | n :: ns, closest =>
    let d := |n.current - p.current|
    if d ≤ n.rootDistance now + max (4 * n.jitter) ppsAgreementFloor then (true, none)
    else ppsAgreement p now ns <| match closest with
      | some c => if d < c.2 then some (n.name, d) else some c
      | none => some (n.name, d)

/-- A PPS source compared with the numbering sources: it survives, or it is a
falseticker that names the source it disagrees with. -/
def SourceState.qualify (p : SourceState K) (numbering : List (SourceState K)) (now : K) :
    SourceState K :=
  let r := ppsAgreement p now numbering none
  { p with
    status := if r.1 then .survivor else .falseticker
    disagreesWith := r.2.map Prod.fst
    disagreement := (r.2.map Prod.snd).getD 0 }

/-! ## The selection -/

/-- `Selection`. -/
structure Selection (K : Type) where
  survivors : List (SourceState K)
  system : Option (SourceState K)
  offset : K
  jitter : K
  preferLost : Bool
  ppsQualified : Bool
  low : K
  high : K
  events : List (Event K)

/-- The system source: a prefer PPS, else a prefer source, else the best-ranked
survivor. -/
def systemSource (survivors : List (SourceState K)) : Option (SourceState K) :=
  ((survivors.find? fun s => s.pps && s.prefer).or (survivors.find? (·.prefer))).or survivors.head?

/-- The weight of a survivor in the combined offset. -/
def SourceState.weight (s : SourceState K) : K :=
  1 / max s.distance (minDispersion / 2)

/-- The combined offset: the system source's own when it is preferred, and
otherwise the weighted mean. -/
def combinedOffset (survivors : List (SourceState K)) (sys : SourceState K) : K :=
  if sys.prefer then sys.current
  else (survivors.map fun s => s.weight * s.current).sum / (survivors.map (·.weight)).sum

/-- The combined jitter: the system source's own with the survivors' spread. -/
def combinedJitter (survivors : List (SourceState K)) (sys : SourceState K) (offset : K) : K :=
  let spread := sqrt ((survivors.map fun s =>
    s.weight * (s.current - offset) * (s.current - offset)).sum / (survivors.map (·.weight)).sum)
  sqrt (sys.jitter * sys.jitter + spread * spread)

/-- Write the decided sources back over the examined ones. -/
def writeBack (decided all : List (SourceState K)) : List (SourceState K) :=
  all.map fun s => (decided.find? (·.name = s.name)).getD s

/-- `SelectAt`: the sources with their new roles, and the selection. -/
def selectAt (sources : List (SourceState K)) (now : K) (minSurvivors : ℤ) (o : SelectOptions K) :
    List (SourceState K) × Selection K :=
  let examined := sources.map (·.examine now o)
  let all := examined.map (·.source)
  let usable := (examined.filter (·.usable)).map (·.source)
  let (chimers, falsetickers) := intersect (usable.filter (!·.pps))
  let (clustered, outliers) := cluster chimers
  let numbering := clustered.filter fun s => s.numbering && decide (|s.current| < ppsGuard)
  let pps := if numbering.isEmpty then []
    else (usable.filter (·.pps)).map (·.qualify numbering now)
  let survivors := (clustered ++ pps.filter (·.status = .survivor)).insertionSort
    (fun a b => a.synch ≤ b.synch)
  let survivors := survivors.map ({ · with status := .survivor, everSurvived := true })
  let rejected := falsetickers ++ outliers ++ pps.filter (·.status ≠ .survivor)
  -- there is nothing to have lost before some source has been usable
  let reportPreferLost := all.any (fun s => s.prefer && !s.noSelect) &&
    (all.any (·.everSurvived) || !survivors.isEmpty)
  let unselected : Selection K :=
    { survivors := survivors, system := none, offset := 0, jitter := 0
      preferLost := reportPreferLost, ppsQualified := !numbering.isEmpty
      low := (lowHigh (usable.filter (!·.pps))).1, high := (lowHigh (usable.filter (!·.pps))).2
      events := examined.flatMap (·.events) }
  match if (survivors.length : ℤ) < minSurvivors then none else systemSource survivors with
  | none => (writeBack (rejected ++ survivors) all, unselected)
  | some sys =>
    let sys := { sys with status := .system }
    let survivors := writeBack [sys] survivors
    let offset := combinedOffset survivors sys
    (writeBack (rejected ++ survivors) all,
      { unselected with
        survivors := survivors
        system := some sys
        offset := offset
        jitter := combinedJitter survivors sys offset
        preferLost := reportPreferLost && !survivors.any (·.prefer) })

/-! ## The leap vote -/

/-- A survivor has a leap indication that is recent enough to vote. -/
def SourceState.votes (s : SourceState K) (now : K) : Bool :=
  let age := now - s.leapUpdated
  !s.pps && !s.leapIncapable && s.leapKnown && decide (s.liveLeap ≠ .unsync)
    && decide (0 ≤ age ∧ age ≤ 2 * 2 ^ s.poll)

/-- `majorityLeap`: the indication of more than half of the voters, or `unsync`. -/
def majorityLeap (surv : List (SourceState K)) (now : K) : Ntp.Leap :=
  let voters := surv.filter (·.votes now)
  ([.none, .insert, .delete].find? fun l =>
    decide (voters.length < 2 * voters.countP (·.liveLeap = l))).getD .unsync

end Carillon.Discipline
