/-
# Runs of the NTP poller: metadata and poll intervals

What an NTP source keeps between polls is changed by replies, by kisses and misses and by a
change of the address.  Two facts hold across every mixture of them:

* the metadata of a reply and its sample in the clock filter are kept in two rings that are
  not emptied by the same events, and yet the metadata ring always covers the filter's, so
  that a measurement is emitted with the metadata of the exchange it rests on;
* the poll interval stays between its floor, which a RATE kiss raises, and its ceiling, which
  a RATE kiss raises to `maxRemoteBackoffPoll` at most.
-/
import Carillon.Discipline.FilterBatch
import Carillon.Source.Ntp

namespace Carillon.Source

open Discipline (HasSqrt Measurement Stage filterStages)
open Carillon.Ntp (RefID)
open Ring (latest)

variable {K : Type}

/-! ## The poller and what has happened to it -/

/-- A poller, with the exchanges its metadata ring was given since it was last emptied, those
of them that entered the filter since the last reset, and the intervals that RATE kisses of
the present server have imposed. -/
structure Poller (K : Type) where
  ntp : Ntp K
  heard : List (Exchange K)
  entered : List (Exchange K)
  imposed : List ℤ

inductive PollerOp (K : Type) where
  /-- A usable reply; the engine may have asked for a reset before it. -/
  | hit (x : Exchange K) (reset : Bool)
  /-- A reply that `discardStale` drops. -/
  | stale
  | event (e : NtpEvent)

/-- The interval a RATE kiss imposes, as `handleKiss` computes it. -/
def Ntp.demand (cfg : NtpConfig) (n : Ntp K) (poll : ℤ) : ℤ :=
  clampPoll (min (max (n.poll + 1) poll) (max maxRemoteBackoffPoll cfg.pollMax)) cfg.pollMin
    (max n.effPollMax (min (max (n.poll + 1) poll) (max maxRemoteBackoffPoll cfg.pollMax)))

section

variable [Field K]

def Poller.new (cfg : NtpConfig) (peer : RefID) : Poller K := ⟨.new cfg peer, [], [], []⟩

/-- The state that `hit` starts from. -/
def Ntp.atHit (n : Ntp K) (reset : Bool) : Ntp K := if reset then n.reset else n

def Poller.on (cfg : NtpConfig) (p : Poller K) (e : NtpEvent) : Poller K :=
  match e with
  | .endpoint _ => ⟨(p.ntp.on cfg e).1, [], [], []⟩
  | .kiss (.rate poll) =>
    { p with ntp := (p.ntp.on cfg e).1, imposed := p.ntp.demand cfg poll :: p.imposed }
  | .kiss _ | .timeout | .miss => { p with ntp := (p.ntp.on cfg e).1 }

/-- The server's stratum is not the one it had. -/
def Ntp.changed (n : Ntp K) (x : Exchange K) : Bool := n.lastStratum.any (· ≠ x.stratum)

variable [LinearOrder K] [HasSqrt K]

def Poller.step (cfg : NtpConfig) (p : Poller K) : PollerOp K → Option (Poller K)
  | .hit x reset =>
    some
      { p with
        ntp := ((p.ntp.atHit reset).hit cfg x).1
        heard := (if p.ntp.changed x then [] else p.heard) ++ [x]
        entered := (if p.ntp.changed x || reset then [] else p.entered) ++ [x] }
  | .stale => some { p with ntp := p.ntp.discardStale }
  | .event e => some (p.on cfg e)

/-- The monotonic clock has advanced since the last reply. -/
def Poller.Later (p : Poller K) : PollerOp K → Prop
  | .hit x _ => ∀ y ∈ p.heard, y.at_ < x.at_
  | .stale | .event _ => True

instance (p : Poller K) : (op : PollerOp K) → Decidable (p.Later op)
  | .hit x _ => inferInstanceAs (Decidable (∀ y ∈ p.heard, y.at_ < x.at_))
  | .stale | .event _ => .isTrue trivial

end

/-! ## The two rings -/

theorem noteMeta_holds {hist : List (StageMeta K)} {n : Ntp K}
    (h : Ring.Holds filterStages hist n.stageMeta n.metaNext) (s : StageMeta K) :
    Ring.Holds filterStages (hist ++ [s]) (n.noteMeta s).stageMeta (n.noteMeta s).metaNext := by
  unfold Ntp.noteMeta
  split
  case isTrue hroom =>
    dsimp only
    rw [h.filling hroom]
    exact h.append hroom s
  case isFalse hfull => exact h.set (not_lt.mp hfull) s

/-- What a poll without a usable reply leaves of the rings. -/
theorem miss_rings (n : Ntp K) :
    n.miss.filter = n.filter ∧ n.miss.stageMeta = n.stageMeta ∧ n.miss.metaNext = n.metaNext := by
  unfold Ntp.miss
  dsimp only
  split <;> exact ⟨rfl, rfl, rfl⟩

theorem handleKiss_rings (cfg : NtpConfig) (n : Ntp K) (k : Kiss) :
    (n.handleKiss cfg k).filter = n.filter ∧ (n.handleKiss cfg k).stageMeta = n.stageMeta ∧
      (n.handleKiss cfg k).metaNext = n.metaNext := by
  cases k with
  | rate poll => exact miss_rings _
  | deny auth => cases auth <;> exact miss_rings _
  | other => exact miss_rings _

/-- The metadata ring answers for every exchange among the latest. -/
theorem find_meta [LinearOrder K] {hist : List (Exchange K)} {metas : List (StageMeta K)} {next : ℕ}
    (hmetas : Ring.Holds filterStages (hist.map Exchange.meta_) metas next)
    (hincreasing : hist.Pairwise fun x y => x.at_ < y.at_) {y : Exchange K}
    (hy : y ∈ latest filterStages hist) :
    metas.find? (fun s => decide (s.at_ = y.at_)) = some y.meta_ := by
  have hperm := hmetas.perm
  rw [Ring.latest_map] at hperm
  have hin : y.meta_ ∈ metas := hperm.symm.subset (List.mem_map_of_mem hy)
  obtain ⟨s, hs⟩ : ∃ s, metas.find? (fun s => decide (s.at_ = y.at_)) = some s := by
    rw [← Option.isSome_iff_exists, List.find?_isSome]
    exact ⟨_, hin, by simp [Exchange.meta_]⟩
  -- no two exchanges are of one time
  have hat : s.at_ = y.at_ := by simpa using List.find?_some hs
  obtain ⟨z, hz, rfl⟩ := List.mem_map.mp (hperm.subset (List.mem_of_find?_eq_some hs))
  have hdistinct : ((latest filterStages hist).map Exchange.at_).Nodup :=
    List.pairwise_map.mpr ((hincreasing.sublist (Ring.latest_sublist _ _)).imp fun h => h.ne)
  rw [hs, List.inj_on_of_nodup_map hdistinct hz hy hat]

variable {cfg : NtpConfig}

section

variable [Field K]

/-- A reply as a sample of the filter. -/
def Exchange.stage (cfg : NtpConfig) (x : Exchange K) : Stage K :=
  ⟨x.offset, x.delay, x.disp cfg, x.at_⟩

variable [LinearOrder K]

/-- Both rings hold what the poller has heard, the filter's since a later point. -/
structure Poller.Paired (cfg : NtpConfig) (p : Poller K) : Prop where
  metas : Ring.Holds filterStages (p.heard.map Exchange.meta_) p.ntp.stageMeta p.ntp.metaNext
  keeps : p.ntp.filter.Keeps (p.entered.map (Exchange.stage cfg))
  suffix : p.entered <:+ p.heard
  increasing : p.heard.Pairwise fun x y => x.at_ < y.at_

theorem paired_new (cfg : NtpConfig) (peer : RefID) : (Poller.new (K := K) cfg peer).Paired cfg :=
  ⟨Ring.holds_nil (by decide), Discipline.keeps_new _, List.suffix_rfl, List.Pairwise.nil⟩

theorem paired_on {p : Poller K} (h : p.Paired cfg) (e : NtpEvent) :
    (p.on cfg e).Paired cfg := by
  -- an event either empties both rings or leaves them alone
  have hsame : ∀ {n : Ntp K} {imposed : List ℤ}, n.filter = p.ntp.filter ∧
      n.stageMeta = p.ntp.stageMeta ∧ n.metaNext = p.ntp.metaNext →
      (⟨n, p.heard, p.entered, imposed⟩ : Poller K).Paired cfg := by
    rintro n imposed ⟨hfilter, hmeta, hnext⟩
    exact ⟨by rw [hmeta, hnext]; exact h.metas, by rw [hfilter]; exact h.keeps, h.suffix,
      h.increasing⟩
  cases e with
  | timeout => exact hsame (miss_rings _)
  | miss => exact hsame (miss_rings _)
  | kiss k => cases k <;> exact hsame (handleKiss_rings cfg p.ntp _)
  | endpoint peer =>
    exact ⟨Ring.holds_nil (by decide), Discipline.keeps_new _, List.suffix_rfl, List.Pairwise.nil⟩

variable [HasSqrt K]

/-- What a hit makes of the rings. -/
theorem hit_rings (cfg : NtpConfig) (n : Ntp K) (x : Exchange K) :
    (n.hit cfg x).1.filter = (x.enter cfg (n.receive cfg x).filter).1 ∧
      (n.hit cfg x).1.stageMeta = (n.receive cfg x).stageMeta ∧
      (n.hit cfg x).1.metaNext = (n.receive cfg x).metaNext := by
  unfold Ntp.hit
  dsimp only
  split <;> exact ⟨rfl, rfl, rfl⟩

omit [HasSqrt K] in
/-- The rings when a reply enters the filter: its metadata is in the one, and not yet its
sample in the other. -/
theorem Poller.Paired.received {p : Poller K} (h : p.Paired cfg) (x : Exchange K) (reset : Bool) :
    Ring.Holds filterStages (((if p.ntp.changed x then [] else p.heard) ++ [x]).map Exchange.meta_)
        ((p.ntp.atHit reset).receive cfg x).stageMeta ((p.ntp.atHit reset).receive cfg x).metaNext ∧
      ((p.ntp.atHit reset).receive cfg x).filter.Keeps
        ((if p.ntp.changed x || reset then [] else p.entered).map (Exchange.stage cfg)) := by
  have hfilter : ∀ (n : Ntp K) (s : StageMeta K), (n.noteMeta s).filter = n.filter := by
    intro n s
    unfold Ntp.noteMeta
    split <;> rfl
  have hlast : (p.ntp.atHit reset).lastStratum = p.ntp.lastStratum := by cases reset <;> rfl
  have hmeta : (p.ntp.atHit reset).stageMeta = p.ntp.stageMeta ∧
      (p.ntp.atHit reset).metaNext = p.ntp.metaNext := by cases reset <;> exact ⟨rfl, rfl⟩
  unfold Ntp.receive Ntp.changed
  dsimp only
  rw [hfilter, List.map_append, List.map_singleton]
  dsimp only
  rw [hlast]
  cases hchanged : p.ntp.lastStratum.any fun stratum => decide (stratum ≠ x.stratum) with
  | true =>
    simp only [if_true, Bool.true_or, List.map_nil]
    exact ⟨noteMeta_holds (Ring.holds_nil (by decide)) _, Discipline.Filter.Keeps.reset⟩
  | false =>
    simp only [Bool.false_eq_true, if_false, Bool.false_or]
    refine ⟨noteMeta_holds (by simpa only [hmeta] using h.metas) _, ?_⟩
    cases reset with
    | true => exact Discipline.Filter.Keeps.reset
    | false => exact h.keeps

variable [IsStrictOrderedRing K]

omit [HasSqrt K] [IsStrictOrderedRing K] in
/-- The exchanges that have been heard when a reply is entered. -/
theorem Poller.Paired.heard_hit {p : Poller K} (h : p.Paired cfg) {x : Exchange K} {reset : Bool}
    (hlater : p.Later (.hit x reset)) :
    ((if p.ntp.changed x || reset then [] else p.entered) ++ [x] <:+
        (if p.ntp.changed x then [] else p.heard) ++ [x]) ∧
      ((if p.ntp.changed x then [] else p.heard) ++ [x]).Pairwise (fun x y => x.at_ < y.at_) ∧
      ∀ s ∈ (if p.ntp.changed x || reset then [] else p.entered).map (Exchange.stage cfg),
        s.t < x.at_ := by
  have hsuffix : (if p.ntp.changed x || reset then [] else p.entered) <:+
      (if p.ntp.changed x then [] else p.heard) := by
    cases p.ntp.changed x with
    | true => exact List.suffix_rfl
    | false =>
      cases reset with
      | true => exact List.nil_suffix
      | false => exact h.suffix
  have hbefore : ∀ y ∈ (if p.ntp.changed x then [] else p.heard), y ∈ p.heard := by
    intro y hy
    cases hc : p.ntp.changed x with
    | true => simp [hc] at hy
    | false => simpa [hc] using hy
  refine ⟨?_, ?_, ?_⟩
  · obtain ⟨before, hbefore⟩ := hsuffix
    exact ⟨before, by rw [← hbefore, List.append_assoc]⟩
  · refine List.pairwise_append.mpr ⟨?_, List.pairwise_singleton _ _, ?_⟩
    · split
      · exact List.Pairwise.nil
      · exact h.increasing
    · intro y hy z hz
      rw [List.mem_singleton.mp hz]
      exact hlater y (hbefore y hy)
  · intro s hs
    obtain ⟨y, hy, rfl⟩ := List.mem_map.mp hs
    exact hlater y (hbefore y (hsuffix.subset hy))

theorem paired_step (p : Poller K) (op : PollerOp K) (q : Poller K) (h : p.Paired cfg)
    (hlater : p.Later op) (hstep : p.step cfg op = some q) : q.Paired cfg := by
  cases op with
  | hit x reset =>
    obtain rfl := Option.some.inj hstep
    obtain ⟨hmetas, hkeeps⟩ := h.received x reset
    obtain ⟨hsuffix, hincreasing, htimes⟩ := h.heard_hit hlater
    obtain ⟨hfilter, hmeta, hnext⟩ := hit_rings cfg (p.ntp.atHit reset) x
    refine ⟨?_, ?_, hsuffix, hincreasing⟩
    · dsimp only
      rw [hmeta, hnext]
      exact hmetas
    · dsimp only
      rw [hfilter, List.map_append, List.map_singleton]
      exact hkeeps.add x.offset x.delay (x.disp cfg) htimes
  | stale =>
    obtain rfl := Option.some.inj hstep
    exact ⟨h.metas, h.keeps, h.suffix, h.increasing⟩
  | event e =>
    obtain rfl := Option.some.inj hstep
    exact paired_on h e

/-- **Metadata pairing.**  In every run of replies at increasing times, engine resets, changes of
the stratum, kisses, misses and changes of the address, a reply after which the filter has a new
estimate is found in the metadata ring, and the measurement is emitted with the metadata of the
exchange that the filter chose. -/
theorem metadata_paired (cfg : NtpConfig) (peer : RefID) (ops : List (PollerOp K)) (p : Poller K)
    (hlater : Runs.Along (Poller.step cfg) Poller.Later (Poller.new cfg peer) ops)
    (hrun : Runs.run (Poller.step cfg) (Poller.new cfg peer) ops = some p)
    (x : Exchange K) (reset : Bool) (hx : p.Later (.hit x reset)) (s : Sample K)
    (hs : ((p.ntp.atHit reset).hit cfg x).2 = some s) :
    ∃ y ∈ (if p.ntp.changed x || reset then [] else p.entered) ++ [x],
      s.out.at_ = y.at_ ∧ ((p.ntp.atHit reset).hit cfg x).1.metaAt s.out.at_ = some y.meta_ ∧
      s.stage = y.meta_ ∧
      ∀ n acquired now, ∃ m : Measurement K, m = Ntp.emit cfg n (some s) acquired now ∧
        m.valid = true ∧ m.offset = y.offset ∧ m.delay = y.delay ∧ m.stratum = y.stratum ∧
        m.refID = y.refID ∧ m.rootDelay = y.rootDelay ∧ m.rootDisp = y.rootDisp ∧
        m.precision = y.precision ∧ m.leap = y.leap ∧ m.refTime = y.refTime := by
  have h : p.Paired cfg :=
    Runs.run_invariant paired_step (paired_new cfg peer) hlater hrun
  obtain ⟨hmetas, hkeeps⟩ := h.received x reset
  obtain ⟨hsuffix, hincreasing, htimes⟩ := h.heard_hit hx
  have hrings := hit_rings cfg (p.ntp.atHit reset) x
  -- the sample is the one that the filter has just reported
  obtain ⟨hnew, hout, hstage⟩ :
      (x.enter cfg ((p.ntp.atHit reset).receive cfg x).filter).2.2 = true ∧
      s.out = (x.enter cfg ((p.ntp.atHit reset).receive cfg x).filter).2.1 ∧
      s.stage = (((p.ntp.atHit reset).receive cfg x).metaAt s.out.at_).getD
        { x.meta_ with at_ := s.out.at_ } := by
    unfold Ntp.hit at hs
    dsimp only at hs
    split at hs
    case isTrue hnew =>
      obtain rfl := Option.some.inj hs
      exact ⟨hnew, rfl, rfl⟩
    case isFalse => cases hs
  obtain ⟨w, hw, hat, hoffset, hdelay⟩ :=
    hkeeps.add_winner x.offset x.delay (x.disp cfg) htimes hnew
  obtain ⟨y, hy, rfl⟩ : ∃ y ∈ latest filterStages
      ((if p.ntp.changed x || reset then [] else p.entered) ++ [x]), Exchange.stage cfg y = w := by
    have hstages :
        ((if p.ntp.changed x || reset then [] else p.entered).map (Exchange.stage cfg)) ++
        [⟨x.offset, x.delay, x.disp cfg, x.at_⟩] =
        ((if p.ntp.changed x || reset then [] else p.entered) ++ [x]).map (Exchange.stage cfg) := by
      rw [List.map_append, List.map_singleton]
      rfl
    rw [hstages, Ring.latest_map] at hw
    exact List.mem_map.mp hw
  have hfind := find_meta hmetas hincreasing (Ring.mem_latest_of_suffix hsuffix hy)
  have hsat : s.out.at_ = y.at_ := (congrArg _ hout).trans hat
  have hmeta : s.stage = y.meta_ := by
    rw [hstage, hsat, Ntp.metaAt, hfind, Option.getD_some]
  refine ⟨y, (Ring.latest_sublist _ _).subset hy, hsat, ?_, hmeta, fun n acquired now => ?_⟩
  · rw [Ntp.metaAt, hrings.2.1, hsat]
    exact hfind
  · refine ⟨_, rfl, rfl, (congrArg _ hout).trans hoffset, (congrArg _ hout).trans hdelay, ?_⟩
    unfold Ntp.emit
    dsimp only [Option.elim]
    rw [hmeta]
    exact ⟨rfl, rfl, rfl, rfl, rfl, rfl, rfl⟩

end

/-- A configuration with intervals from 64 s to 1024 s. -/
def pollerConfig : NtpConfig := ⟨.server, 6, 10, true, -20⟩

/-- A reply of a server at a stratum; its root delay tells the replies apart. -/
def pollerReply (stratum : ℕ) (delay at_ : ℚ) : Exchange ℚ where
  offset := 1 / 1000
  delay := delay
  t1 := 0
  t4 := 0
  stratum := stratum
  refID := default
  rootDelay := at_
  rootDisp := 0
  precision := -20
  leap := .none
  refTime := 0
  at_ := at_
  now := at_

/-- A change of the stratum, a fast reply, and a slower one that does not replace it. -/
def pollerRun : List (PollerOp ℚ) :=
  [.hit (pollerReply 3 (1 / 100) (1 / 2)) false, .hit (pollerReply 2 (1 / 100) 1) false,
    .hit (pollerReply 2 (1 / 20) 1000) false]

/-- The next reply is slower still, but the fast one is too old by then: the estimate is that
of the reply at 1000, and so is the metadata. -/
theorem metadata_paired_pollerRun :
    ∃ (p : Poller ℚ) (s : Sample ℚ) (y : Exchange ℚ),
      Runs.run (Poller.step pollerConfig) (Poller.new pollerConfig default) pollerRun = some p ∧
      ((p.ntp.atHit false).hit pollerConfig (pollerReply 2 (1 / 5) 2100)).2 = some s ∧
      y.at_ = 1000 ∧ s.stage = y.meta_ := by
  have hlater : Runs.Along (Poller.step pollerConfig) Poller.Later (Poller.new pollerConfig default)
      (pollerRun ++ [.hit (pollerReply 2 (1 / 5) 2100) false]) := by
    decide +kernel
  obtain ⟨hbefore, hlast⟩ := Runs.along_append.mp hlater
  have hstate : (Runs.run (Poller.step pollerConfig) (Poller.new pollerConfig default)
      pollerRun).map (fun p => ((p.ntp.atHit false).hit pollerConfig
        (pollerReply 2 (1 / 5) 2100)).2.map fun s => s.out.at_) = some (some 1000) := by
    decide +kernel
  obtain ⟨p, hp, hs⟩ := Option.map_eq_some_iff.mp hstate
  obtain ⟨s, hs, hat⟩ := Option.map_eq_some_iff.mp hs
  obtain ⟨y, -, hyat, -, hstage, -⟩ := metadata_paired pollerConfig default pollerRun p hbefore hp
    (pollerReply 2 (1 / 5) 2100) false (hlast p hp).1 s hs
  exact ⟨p, s, y, hp, hs, hyat.symm.trans hat, hstage⟩

/-! ## Poll intervals -/

/-- The interval is at least its floor and at most its ceiling, and the ceiling is at most what
a remote server may demand or the operator allows. -/
structure Ntp.Within (cfg : NtpConfig) (n : Ntp K) : Prop where
  floor : n.pollFloor cfg ≤ n.poll
  ceiling : n.poll ≤ n.effPollMax
  cap : n.effPollMax ≤ max maxRemoteBackoffPoll cfg.pollMax

theorem clampPoll_mem (low high poll : ℤ) (h : low ≤ high) :
    low ≤ clampPoll poll low high ∧ clampPoll poll low high ≤ high := by
  unfold clampPoll
  split_ifs <;> omega

/-- A poll without a usable reply makes the interval longer at most. -/
theorem Ntp.Within.miss {n : Ntp K} (h : n.Within cfg) :
    n.miss.Within cfg ∧ n.poll ≤ n.miss.poll ∧ n.miss.kodMinPoll = n.kodMinPoll := by
  obtain ⟨hfloor, hceiling, hcap⟩ := h
  unfold Ntp.miss
  dsimp only
  split
  case isTrue hmore =>
    refine ⟨⟨hfloor.trans ?_, hmore.2.2, hcap⟩, ?_, rfl⟩
    · exact (Int.lt_add_one_iff.mpr (le_refl _)).le
    · exact (Int.lt_add_one_iff.mpr (le_refl _)).le
  case isFalse => exact ⟨⟨hfloor, hceiling, hcap⟩, le_refl _, rfl⟩

/-- A RATE kiss demands no shorter interval than the present one. -/
theorem Ntp.Within.demand {n : Ntp K} (h : n.Within cfg) (poll : ℤ) :
    n.poll ≤ n.demand cfg poll ∧ n.demand cfg poll ≤ max maxRemoteBackoffPoll cfg.pollMax := by
  obtain ⟨hfloor, hceiling, hcap⟩ := h
  unfold Ntp.pollFloor at hfloor
  unfold Ntp.demand clampPoll
  split_ifs <;> omega

theorem Ntp.Within.handleKiss {n : Ntp K} (h : n.Within cfg) (k : Kiss) :
    (n.handleKiss cfg k).Within cfg ∧ n.poll ≤ (n.handleKiss cfg k).poll ∧
      n.kodMinPoll ≤ (n.handleKiss cfg k).kodMinPoll ∧
      ∀ poll, k = .rate poll → n.demand cfg poll ≤ (n.handleKiss cfg k).kodMinPoll := by
  cases k with
  | rate poll =>
    obtain ⟨hslower, hremote⟩ := h.demand poll
    generalize hwant : min (max (n.poll + 1) poll) (max maxRemoteBackoffPoll cfg.pollMax) = want
    have hdemand : n.demand cfg poll = clampPoll want cfg.pollMin (max n.effPollMax want) := by
      rw [Ntp.demand, hwant]
    have hwithin : ({ n with
        effPollMax := max n.effPollMax want
        kodMinPoll := max n.kodMinPoll (n.demand cfg poll)
        poll := n.demand cfg poll } : Ntp K).Within cfg := by
      obtain ⟨hfloor, hceiling, hcap⟩ := h
      unfold Ntp.pollFloor at hfloor
      have hclamp := clampPoll_mem cfg.pollMin (max n.effPollMax want) want (by omega)
      rw [← hdemand] at hclamp
      refine ⟨?_, hclamp.2, ?_⟩
      · unfold Ntp.pollFloor
        dsimp only
        omega
      · dsimp only
        omega
    have hkiss : n.handleKiss cfg (.rate poll) = ({ n with
        effPollMax := max n.effPollMax want
        kodMinPoll := max n.kodMinPoll (n.demand cfg poll)
        poll := n.demand cfg poll } : Ntp K).miss := by
      rw [hdemand, ← hwant]
      rfl
    obtain ⟨hmiss, hpoll, hkod⟩ := hwithin.miss
    rw [hkiss]
    refine ⟨hmiss, hslower.trans hpoll, ?_, ?_⟩
    · rw [hkod]
      exact le_max_left _ _
    · rintro poll' ⟨⟩
      rw [hkod]
      exact le_max_right _ _
  | deny auth =>
    cases auth with
    | true =>
      obtain ⟨⟨hfloor, hceiling, hcap⟩, hpoll, hkod⟩ :=
        (show ({ n with denied := true } : Ntp K).Within cfg from ⟨h.floor, h.ceiling, h.cap⟩).miss
      exact ⟨⟨hfloor, hceiling, hcap⟩, hpoll, hkod.ge, fun _ hk => by cases hk⟩
    | false =>
      obtain ⟨hmiss, hpoll, hkod⟩ := h.miss
      exact ⟨hmiss, hpoll, hkod.ge, fun _ hk => by cases hk⟩
  | other =>
    obtain ⟨hmiss, hpoll, hkod⟩ := h.miss
    exact ⟨hmiss, hpoll, hkod.ge, fun _ hk => by cases hk⟩

section

variable [Field K] [LinearOrder K] [HasSqrt K]

/-- A reply keeps the floor and the ceiling, and adapts the interval between them. -/
theorem Ntp.Within.hit {n : Ntp K} (h : n.Within cfg) (x : Exchange K) :
    (n.hit cfg x).1.Within cfg ∧ (n.hit cfg x).1.kodMinPoll = n.kodMinPoll := by
  obtain ⟨hfloor, hceiling, hcap⟩ := h
  have hnote : ∀ (n : Ntp K) (s : StageMeta K), (n.noteMeta s).poll = n.poll ∧
      (n.noteMeta s).kodMinPoll = n.kodMinPoll ∧ (n.noteMeta s).effPollMax = n.effPollMax := by
    intro n s
    unfold Ntp.noteMeta
    split <;> exact ⟨rfl, rfl, rfl⟩
  obtain ⟨hpoll, hkod, heff⟩ : ((n.receive cfg x).poll = n.pollFloor cfg ∨
      (n.receive cfg x).poll = n.poll) ∧ (n.receive cfg x).kodMinPoll = n.kodMinPoll ∧
      (n.receive cfg x).effPollMax = n.effPollMax := by
    unfold Ntp.receive
    dsimp only
    obtain ⟨hpoll, hkod, heff⟩ := hnote _ x.meta_
    rw [hpoll, hkod, heff]
    refine ⟨?_, rfl, rfl⟩
    dsimp only
    split
    · exact .inl rfl
    · exact .inr rfl
  have hsame : (n.receive cfg x).pollFloor cfg = n.pollFloor cfg := by
    rw [Ntp.pollFloor, Ntp.pollFloor, hkod]
  have hwithin : (n.receive cfg x).Within cfg := by
    refine ⟨?_, ?_, by rw [heff]; exact hcap⟩
    · rw [hsame]
      rcases hpoll with hpoll | hpoll <;> rw [hpoll]
      exact hfloor
    · rw [heff]
      rcases hpoll with hpoll | hpoll <;> rw [hpoll]
      · exact hfloor.trans hceiling
      · exact hceiling
  unfold Ntp.hit
  dsimp only
  split
  case isFalse => exact ⟨⟨hwithin.floor, hwithin.ceiling, hwithin.cap⟩, hkod⟩
  case isTrue =>
    -- the interval is clamped between the two
    refine ⟨⟨?_, ?_, hwithin.cap⟩, hkod⟩
    · exact (clampPoll_mem _ _ _ (hwithin.floor.trans hwithin.ceiling)).1
    · exact (clampPoll_mem _ _ _ (hwithin.floor.trans hwithin.ceiling)).2

omit [LinearOrder K] [HasSqrt K] in
/-- The poller's interval is within its bounds, and the floor is at least what was imposed. -/
structure Poller.Heeds (cfg : NtpConfig) (p : Poller K) : Prop where
  within : p.ntp.Within cfg
  imposed : ∀ d ∈ p.imposed, d ≤ p.ntp.kodMinPoll

omit [LinearOrder K] [HasSqrt K] in
theorem heeds_on (hmin : 2 ≤ cfg.pollMin) (hle : cfg.pollMin ≤ cfg.pollMax) {p : Poller K}
    (h : p.Heeds cfg) (e : NtpEvent) : (p.on cfg e).Heeds cfg := by
  cases e with
  | timeout =>
    obtain ⟨hmiss, -, hkod⟩ := (show ({ p.ntp with
      consecutiveTimeouts := p.ntp.consecutiveTimeouts + 1 } : Ntp K).Within cfg from
        ⟨h.within.floor, h.within.ceiling, h.within.cap⟩).miss
    exact ⟨hmiss, fun d hd => (h.imposed d hd).trans_eq hkod.symm⟩
  | miss =>
    obtain ⟨hmiss, -, hkod⟩ := h.within.miss
    exact ⟨hmiss, fun d hd => (h.imposed d hd).trans_eq hkod.symm⟩
  | kiss k =>
    obtain ⟨hwithin, -, hkod, hdemand⟩ := h.within.handleKiss k
    cases k with
    | rate poll =>
      refine ⟨hwithin, fun d hd => ?_⟩
      rcases List.mem_cons.mp hd with rfl | hd
      · exact hdemand poll rfl
      · exact (h.imposed d hd).trans hkod
    | deny auth => exact ⟨hwithin, fun d hd => (h.imposed d hd).trans hkod⟩
    | other => exact ⟨hwithin, fun d hd => (h.imposed d hd).trans hkod⟩
  | endpoint peer =>
    refine ⟨⟨?_, hle, le_max_right _ _⟩, fun d hd => absurd hd List.not_mem_nil⟩
    show max cfg.pollMin 0 ≤ cfg.pollMin
    omega

theorem heeds_step (hmin : 2 ≤ cfg.pollMin) (hle : cfg.pollMin ≤ cfg.pollMax) (p : Poller K)
    (op : PollerOp K) (q : Poller K) (h : p.Heeds cfg) (hstep : p.step cfg op = some q) :
    q.Heeds cfg := by
  cases op with
  | hit x reset =>
    obtain rfl := Option.some.inj hstep
    have hreset : (p.ntp.atHit reset).Within cfg ∧
        (p.ntp.atHit reset).kodMinPoll = p.ntp.kodMinPoll := by
      cases reset with
      | true => exact ⟨⟨h.within.floor, h.within.ceiling, h.within.cap⟩, rfl⟩
      | false => exact ⟨h.within, rfl⟩
    obtain ⟨hwithin, hkod⟩ := hreset.1.hit x
    exact ⟨hwithin, fun d hd => (h.imposed d hd).trans_eq (hkod.trans hreset.2).symm⟩
  | stale =>
    obtain rfl := Option.some.inj hstep
    exact ⟨⟨h.within.floor, h.within.ceiling, h.within.cap⟩, h.imposed⟩
  | event e =>
    obtain rfl := Option.some.inj hstep
    exact heeds_on hmin hle h e

/-- **Poll bounds.**  For every configuration in range and every mixture of replies, misses,
kisses with any poll value and changes of the address: the interval is between its floor and
its ceiling, these are between the configured minimum and the accepted backoff or the configured
maximum, the interval is at least every one that a RATE kiss of the present server has imposed,
and a further RATE kiss does not lower it.  The exponent stays far from the end of its eight
bits. -/
theorem poll_bounds (cfg : NtpConfig) (hmin : 2 ≤ cfg.pollMin) (hle : cfg.pollMin ≤ cfg.pollMax)
    (hmax : cfg.pollMax ≤ 17) (peer : RefID) (ops : List (PollerOp K)) (p : Poller K)
    (hrun : Runs.run (Poller.step cfg) (Poller.new cfg peer) ops = some p) :
    cfg.pollMin ≤ p.ntp.pollFloor cfg ∧ p.ntp.pollFloor cfg ≤ p.ntp.poll ∧
      p.ntp.poll ≤ p.ntp.effPollMax ∧ p.ntp.effPollMax ≤ max maxRemoteBackoffPoll cfg.pollMax ∧
      (∀ d ∈ p.imposed, d ≤ p.ntp.poll) ∧
      (∀ poll, p.ntp.poll ≤ (p.ntp.handleKiss cfg (.rate poll)).poll) ∧
      p.ntp.poll + 1 < 2 ^ 7 := by
  have hnew : (Poller.new (K := K) cfg peer).Heeds cfg := by
    refine ⟨⟨?_, hle, le_max_right _ _⟩, fun d hd => absurd hd List.not_mem_nil⟩
    show max cfg.pollMin 0 ≤ cfg.pollMin
    omega
  have h : p.Heeds cfg :=
    Runs.run_invariant (C := fun _ _ => True)
      (fun p op q hp _ hstep => heeds_step hmin hle p op q hp hstep) hnew
      (Runs.along_of_forall (fun _ _ => trivial) _ _) hrun
  obtain ⟨hfloor, hceiling, hcap⟩ := h.within
  have hkod : p.ntp.kodMinPoll ≤ p.ntp.poll := (le_max_right _ _).trans hfloor
  refine ⟨le_max_left _ _, hfloor, hceiling, hcap, fun d hd => (h.imposed d hd).trans hkod,
    fun poll => (h.within.handleKiss (.rate poll)).2.1, ?_⟩
  unfold maxRemoteBackoffPoll at hcap
  omega

end

/-- A RATE kiss with the largest poll, a miss and a RATE kiss with a negative one. -/
theorem poll_bounds_kissed :
    ∃ p : Poller ℚ, Runs.run (Poller.step pollerConfig) (Poller.new pollerConfig default)
        [.event (.kiss (.rate 127)), .event .miss, .event (.kiss (.rate (-128)))] = some p ∧
      p.imposed = [13, 13] ∧ 13 ≤ p.ntp.poll ∧ p.ntp.effPollMax ≤ 13 := by
  obtain ⟨p, hp⟩ : ∃ p : Poller ℚ, Runs.run (Poller.step pollerConfig)
      (Poller.new pollerConfig default)
      [.event (.kiss (.rate 127)), .event .miss, .event (.kiss (.rate (-128)))] = some p := ⟨_, rfl⟩
  have himposed : p.imposed = [13, 13] := by
    obtain rfl := Option.some.inj hp
    decide +kernel
  obtain ⟨-, -, -, hcap, hheeds, -⟩ := poll_bounds pollerConfig (by decide) (by decide) (by decide)
    default _ p hp
  exact ⟨p, hp, himposed, hheeds 13 (by rw [himposed]; decide), hcap⟩

end Carillon.Source
