/-
# When the updater asks

`Leap/Updater` leaves open what only time decides.  This module has the schedule of `Run`: when
the next job is due, how an answer moves it, and the publisher's `LastAttempt`, which is saved
before each request and outlives the process.

* Two requests to a publisher are fifteen minutes apart, restarts included (`publisher_floor`).
* Within a process a provider is left alone for as long as its last answer demands, and a peer
  that refuses us is not asked again (`answer_obeyed`).

The loop's views, the updater's state and the random numbers are given with each turn.
-/
import Mathlib.Tactic
import Carillon.Lib.Runs
import Carillon.Leap.Fetch
import Carillon.Leap.Updater

namespace Carillon.Leap

/-! ## Intervals -/

/-- `seedRetryFloor`. -/
def seedRetryFloor : ℤ := 15 * minute

/-- `errorBackoff`. -/
def errorBackoff (previous : ℤ) : ℤ :=
  if previous = 0 then seedRetryFloor else min (2 * previous) (6 * hour)

/-- `jitter`, on the number that the generator returned, unless it failed. -/
def jitter (interval : ℤ) (random : Option ℕ) : ℤ :=
  match random with
  | none => 0
  | some n => if interval / 5 = 0 then 0 else n % (interval / 5) - interval / 10

/-- An interval with jitter that never cuts it short. -/
def stretched (interval : ℤ) (random : Option ℕ) : ℤ :=
  interval + (jitter interval random).tdiv 2 + interval / 20

/-- The jitter takes off a tenth of the interval at most. -/
theorem jitter_ge {interval : ℤ} (h : 0 ≤ interval) (random : Option ℕ) :
    -(interval / 10) ≤ jitter interval random := by
  cases random with
  | none => simp only [jitter]; omega
  | some n =>
    simp only [jitter]
    split_ifs with hspan
    · omega
    · have := Int.emod_nonneg n hspan
      omega

/-- A stretched interval is no shorter. -/
theorem le_stretched {interval : ℤ} (h : 0 ≤ interval) (random : Option ℕ) :
    interval ≤ stretched interval random := by
  have hge := jitter_ge h random
  have hhalf : -(interval / 20) ≤ (jitter interval random).tdiv 2 := by
    rcases le_or_gt 0 (jitter interval random) with hj | hj
    · have := Int.tdiv_nonneg hj (by decide : (0 : ℤ) ≤ 2)
      omega
    · -- the quotient is cut off toward zero
      have hneg := Int.neg_tdiv (-jitter interval random) 2
      have hquot : (-jitter interval random).tdiv 2 = -jitter interval random / 2 :=
        Int.tdiv_eq_ediv_of_nonneg (by omega)
      rw [neg_neg, hquot] at hneg
      omega
  unfold stretched
  omega

/-! ## Answers -/

/-- How a job ended, as far as it decides about the next one. -/
inductive Answer where
  | ok
  | error
  /-- `SeedError`, of a publisher. -/
  | seedError (status : ℕ) (retryAfter : ℤ)
  | peerError (e : PeerError)
  deriving DecidableEq

/-- `SeedError.clientError`. -/
def clientError (status : ℕ) : Bool :=
  decide (400 ≤ status ∧ status < 500 ∧ status ≠ 429 ∧ status ≠ 408 ∧ status ≠ 425)

/-- The interval after a success. -/
def Mode.interval : Mode → ℤ
  | .manual _ => hour
  | .seed _ => day
  | .peers _ => 6 * hour

/-- After a success jitter may cut the interval short, but not for a peer. -/
def Mode.jitters : Mode → Bool
  | .peers _ => false
  | _ => true

/-- The interval after an answer: what a publisher or a peer asks for outranks the backoff. -/
def Answer.interval (mode : Mode) (backoff : ℤ) : Answer → ℤ
  | .ok => mode.interval
  | .error => backoff
  | .seedError status retryAfter =>
    max (if clientError status then max backoff day else backoff) retryAfter
  | .peerError e => max backoff e.retryAfter

/-- `peerSchedule`; outside peer mode `next` and `backoff` are the `nextJob` and `backoff` of
`Run`. -/
structure PeerSchedule where
  next : ℤ
  backoff : ℤ
  stopped : Bool
  spacing : ℤ

/-- A provider's schedule after an answer. -/
def PeerSchedule.answered (mode : Mode) (p : PeerSchedule) (now : ℤ) (random : Option ℕ)
    (a : Answer) : PeerSchedule :=
  let backoff := if a = .ok then 0 else errorBackoff p.backoff
  let interval := a.interval mode backoff
  { next := now +
      if a = .ok ∧ mode.jitters = true then interval + jitter interval random
      else stretched interval random
    backoff := backoff
    stopped := match a with
      | .peerError e => e.stop
      | _ => p.stopped
    spacing := match a with
      | .ok => 0
      | .peerError e => max p.spacing e.minInterval
      | _ => p.spacing }

/-! ## The schedule -/

/-- The variables of `Run`; `gate` is the `nextJob` of peer mode, which spaces the jobs. -/
structure Schedule where
  gate : ℤ
  peers : ℕ → PeerSchedule
  initialSchedule : Bool
  inflight : Option ℕ
  lastAttempt : ℤ

def Schedule.new (lastAttempt : ℤ) : Schedule :=
  ⟨0, fun _ => ⟨0, 0, false, 0⟩, true, none, lastAttempt⟩

/-- What one turn of the loop sees; `dirty` is after its save. -/
structure Turn where
  now : ℤ
  view : View
  state : State
  dirty : Bool
  random : Option ℕ

/-- A job that has been started, with the spacing of its requests. -/
structure Job where
  peer : ℕ
  at_ : ℤ
  spacing : ℤ
  deriving DecidableEq

/-- `Updater.spacing`. -/
def jobSpacing : ℤ := 4 * second

section

variable (sha256 : Bytes → Digest) (mode : Mode)

/-- The number of providers. -/
def Mode.count : Mode → ℕ
  | .peers ps => ps.length
  | _ => 1

/-- `leapCurrent`. -/
def leapCurrent (o : Object) (v : View) : Bool :=
  match checkUpdate sha256 none (some o) v.effective with
  | .ok () => true
  | .error _ => false

/-- The first request to a publisher: a table that is current is checked daily, and the floor is
kept across processes. -/
def Schedule.firstJob (s : Schedule) (t : Turn) : ℤ :=
  let next := match t.state.active with
    | some r =>
      if leapCurrent sha256 r.object t.view then
        let checked := if t.state.lastCheck = 0 then r.accepted else t.state.lastCheck
        t.now + max 0 (day + jitter day t.random - sub t.view.now checked)
      else (s.peers 0).next
    | none => (s.peers 0).next
  let wait := seedRetryFloor - sub t.view.now s.lastAttempt
  if s.lastAttempt ≠ 0 ∧ 0 < wait then max next (t.now + wait) else next

/-- The first turn that knows UTC. -/
def Schedule.begin (s : Schedule) (t : Turn) : Schedule :=
  if t.view.known && s.initialSchedule then
    { s with
      initialSchedule := false
      peers := if mode.isSeed then Function.update s.peers 0
        { s.peers 0 with next := s.firstJob sha256 t } else s.peers }
  else s

/-- The provider that a turn asks, once UTC is known, nothing is under way and the state is saved:
the first that is due. -/
def Schedule.job (s : Schedule) (t : Turn) : Option ℕ :=
  if t.view.known && s.inflight.isNone && !t.dirty && decide (s.gate ≤ t.now) then
    (List.range mode.count).find? fun i => !(s.peers i).stopped && decide ((s.peers i).next ≤ t.now)
  else none

/-- A job is started; an attempt at a publisher is recorded before it is made. -/
def Schedule.start (s : Schedule) (t : Turn) (i : ℕ) : Schedule :=
  { s with inflight := some i, lastAttempt := if mode.isSeed then t.view.now else s.lastAttempt }

/-- The schedule after an answer; the clock is read again for the gate. -/
def Schedule.answered (s : Schedule) (i : ℕ) (a : Answer) (now now' : ℤ) (random : Option ℕ) :
    Schedule :=
  { s with
    inflight := none
    peers := Function.update s.peers i ((s.peers i).answered mode now random a)
    gate := if mode.jitters then s.gate else now' + jobSpacing }

/-- The schedule with what it has left on the disk, the time, and the jobs, the latest first. -/
structure Asking where
  schedule : Schedule
  saved : ℤ
  clock : ℤ
  jobs : List Job

inductive AskEvent where
  /-- A turn of the loop; `ok` is the outcome of `saveSeed`, if there is one. -/
  | turn (t : Turn) (ok : Bool)
  /-- A job ends; new validators are saved with the attempt. -/
  | answer (a : Answer) (now now' : ℤ) (random : Option ℕ) (resaved : Bool)
  /-- The process ends in any way, and a new one loads the bookkeeping. -/
  | restart (now : ℤ)

def Asking.start (lastAttempt now : ℤ) : Asking := ⟨.new lastAttempt, lastAttempt, now, []⟩

/-- One event. -/
def Asking.step (x : Asking) : AskEvent → Option Asking
  | .turn t ok =>
    let s := x.schedule.begin sha256 mode t
    match s.job mode t with
    | none => some { x with schedule := s, clock := t.now }
    | some i =>
      let started := s.start mode t i
      let saved := if mode.isSeed && ok then started.lastAttempt else x.saved
      some ⟨started, saved, t.now, ⟨i, t.now, max jobSpacing (s.peers i).spacing⟩ :: x.jobs⟩
  | .answer a now now' random resaved => x.schedule.inflight.map fun i =>
    let saved := if resaved && mode.isSeed then x.schedule.lastAttempt else x.saved
    ⟨x.schedule.answered mode i a now now' random, saved, now', x.jobs⟩
  | .restart now => some { x with schedule := .new x.saved, clock := now }

end

/-- Time does not go back. -/
def Asking.Later (x : Asking) : AskEvent → Prop
  | .turn t _ => x.clock ≤ t.now
  | .answer _ now now' _ _ => x.clock ≤ now ∧ now ≤ now'
  | .restart now => x.clock ≤ now

instance (x : Asking) : (e : AskEvent) → Decidable (x.Later e)
  | .turn _ _ => inferInstanceAs (Decidable (_ ≤ _))
  | .answer _ _ _ _ _ => inferInstanceAs (Decidable (_ ∧ _))
  | .restart _ => inferInstanceAs (Decidable (_ ≤ _))

def AskEvent.isRestart : AskEvent → Bool
  | .restart _ => true
  | _ => false

/-! ## Turns -/

section

variable {sha256 : Bytes → Digest} {mode : Mode} {s : Schedule} {t : Turn}
  {x y : Asking} {e : AskEvent} {i : ℕ}

/-- A job starts with a known time and nothing in flight, at a peer that is due. -/
theorem job_eq_some (h : s.job mode t = some i) : t.view.known = true ∧ s.inflight = none ∧
    i < mode.count ∧ (s.peers i).stopped = false ∧ (s.peers i).next ≤ t.now := by
  unfold Schedule.job at h
  split_ifs at h with hc
  rw [Bool.and_eq_true, Bool.and_eq_true, Bool.and_eq_true, Option.isNone_iff_eq_none] at hc
  have hdue := List.find?_some h
  rw [Bool.and_eq_true, Bool.not_eq_true', decide_eq_true_eq] at hdue
  exact ⟨hc.1.1.1, hc.1.1.2, List.mem_range.mp (List.mem_of_find?_eq_some h), hdue⟩

/-- The schedule is set up once. -/
theorem begin_of_started (h : s.initialSchedule = false) : s.begin sha256 mode t = s := by
  rw [Schedule.begin, h, Bool.and_false, if_neg Bool.false_ne_true]

/-- It is set up as soon as the time is known. -/
theorem begin_known (h : t.view.known = true) :
    (s.begin sha256 mode t).initialSchedule = false := by
  cases hs : s.initialSchedule with
  | false => rw [begin_of_started hs, hs]
  | true =>
    rw [Schedule.begin, h, hs, Bool.true_and, if_pos rfl]

/-! ## Pauses -/

/-- A backoff is at least the retry floor. -/
theorem errorBackoff_ge {b : ℤ} (h : b = 0 ∨ seedRetryFloor ≤ b) :
    seedRetryFloor ≤ errorBackoff b := by
  unfold errorBackoff
  split_ifs with h0
  · exact le_rfl
  · have hb := h.resolve_left h0
    have hfloor : (0 : ℤ) ≤ seedRetryFloor ∧ seedRetryFloor ≤ 6 * hour := by decide
    exact le_min (by omega) hfloor.2

/-- How long an answer keeps its provider from being asked. -/
def Answer.pause (mode : Mode) (a : Answer) : ℤ :=
  if a = .ok ∧ mode.jitters = true then mode.interval - mode.interval / 10
  else a.interval mode seedRetryFloor

/-- No mode checks more often than once an hour. -/
theorem Mode.interval_ge (mode : Mode) : hour ≤ mode.interval := by
  cases mode <;> norm_num [Mode.interval, day, hour, minute, second]

/-- The backoff is zero, or no less than the floor. -/
def PeerSchedule.Backed (p : PeerSchedule) : Prop := p.backoff = 0 ∨ seedRetryFloor ≤ p.backoff

/-- An answer puts its provider off for as long as it asks, and for the floor at least. -/
theorem answered_next (mode : Mode) {p : PeerSchedule} (h : p.Backed) (now : ℤ) (random : Option ℕ)
    (a : Answer) :
    seedRetryFloor ≤ a.pause mode ∧ now + a.pause mode ≤ (p.answered mode now random a).next ∧
      (p.answered mode now random a).Backed := by
  have hfloor : 0 ≤ seedRetryFloor ∧ 2 * seedRetryFloor ≤ hour ∧ seedRetryFloor ≤ day := by decide
  have hinterval := mode.interval_ge
  by_cases hok : a = .ok
  · subst hok
    have hj := jitter_ge (by omega : 0 ≤ mode.interval) random
    have hs := le_stretched (by omega : 0 ≤ mode.interval) random
    simp only [Answer.pause, PeerSchedule.answered, Answer.interval, true_and]
    exact ⟨by split_ifs <;> omega, by split_ifs <;> omega, .inl rfl⟩
  · have hback := errorBackoff_ge h
    have hle : seedRetryFloor ≤ a.interval mode seedRetryFloor ∧
        a.interval mode seedRetryFloor ≤ a.interval mode (errorBackoff p.backoff) := by
      cases a with
      | ok => exact absurd rfl hok
      | error => exact ⟨le_rfl, hback⟩
      | seedError status retryAfter =>
        simp only [Answer.interval]
        split_ifs <;> omega
      | peerError e =>
        simp only [Answer.interval]
        omega
    have hs := le_stretched (by omega : 0 ≤ a.interval mode (errorBackoff p.backoff)) random
    simp only [Answer.pause, PeerSchedule.answered, hok, false_and, if_false]
    exact ⟨hle.1, by omega, .inr hback⟩

/-- Every backoff is zero or no less than the floor; a job is under way only after the first
schedule, and it asks one of the providers. -/
structure Schedule.Backed (mode : Mode) (s : Schedule) : Prop where
  peers : ∀ i, (s.peers i).Backed
  begun : ∀ i, s.inflight = some i → s.initialSchedule = false ∧ i < mode.count

/-- A new schedule has no backoff. -/
theorem backed_new (lastAttempt : ℤ) : (Schedule.new lastAttempt).Backed mode :=
  ⟨fun _ => .inl rfl, by rintro i ⟨⟩⟩

/-- Setting the schedule up leaves the backoffs. -/
theorem backed_begin (h : s.Backed mode) : (s.begin sha256 mode t).Backed mode := by
  unfold Schedule.begin
  split_ifs
  · refine ⟨fun i => ?_, fun i hi => ⟨rfl, (h.begun i hi).2⟩⟩
    dsimp only
    rcases eq_or_ne i 0 with rfl | hi
    · rw [Function.update_self]
      exact h.peers 0
    · rw [Function.update_of_ne hi]
      exact h.peers i
  · exact ⟨h.peers, fun i hi => ⟨rfl, (h.begun i hi).2⟩⟩
  · exact h

/-- Every step keeps the backoffs above the floor. -/
theorem backed_step (h : x.schedule.Backed mode) (hs : x.step sha256 mode e = some y) :
    y.schedule.Backed mode := by
  cases e with
  | turn t ok =>
    have hb : (x.schedule.begin sha256 mode t).Backed mode := backed_begin h
    simp only [Asking.step] at hs
    split at hs <;> rename_i hjob <;> cases hs
    · exact hb
    · obtain ⟨hk, -, hvalid, -⟩ := job_eq_some hjob
      refine ⟨hb.peers, ?_⟩
      rintro j ⟨⟩
      exact ⟨begin_known hk, hvalid⟩
  | answer a now now' random resaved =>
    obtain ⟨i, -, rfl⟩ := Option.map_eq_some_iff.mp hs
    refine ⟨fun j => ?_, by rintro j ⟨⟩⟩
    simp only [Schedule.answered]
    rcases eq_or_ne j i with rfl | hj
    · rw [Function.update_self]
      exact (answered_next mode (h.peers j) now random a).2.2
    · rw [Function.update_of_ne hj]
      exact h.peers j
  | restart now =>
    cases hs
    exact backed_new _

/-! ## The publisher's floor -/

variable {offset at_ clock : ℤ}

/-- UTC runs with the scheduling clock where it is known, and the bookkeeping is saved. -/
def AskEvent.Trusted (offset : ℤ) : AskEvent → Prop
  | .turn t ok => ok = true ∧ (t.view.known = true → t.view.now = t.now + offset ∧ t.view.now ≠ 0)
  | _ => True

instance (offset : ℤ) : (e : AskEvent) → Decidable (e.Trusted offset)
  | .turn _ _ => inferInstanceAs (Decidable (_ ∧ (_ → _)))
  | .answer _ _ _ _ _ => .isTrue trivial
  | .restart _ => .isTrue trivial

/-- A request at the time `at_` still counts: it is recorded, and until the floor is over the
schedule has not begun, or waits for the answer or for the floor. -/
structure Schedule.Waits (offset at_ clock : ℤ) (s : Schedule) : Prop where
  recorded : s.lastAttempt = at_ + offset
  rest : s.initialSchedule = true ∨ s.inflight ≠ none ∨ at_ + seedRetryFloor ≤
    max (s.peers 0).next clock

/-- The first job after a restart waits for the floor since the recorded attempt. -/
theorem firstJob_ge (hrecorded : s.lastAttempt = at_ + offset) (hzero : at_ + offset ≠ 0)
    (hutc : t.view.now = t.now + offset) (hat : at_ ≤ t.now) :
    at_ + seedRetryFloor ≤ max (s.firstJob sha256 t) t.now := by
  have hfloor : seedRetryFloor < maxDuration := by decide
  unfold Schedule.firstJob
  simp only [hrecorded, hutc, sub]
  split_ifs <;> omega

/-- Setting the schedule up keeps the wait after an attempt. -/
theorem waits_begin (hmode : mode.isSeed = true) (h : s.Waits offset at_ clock)
    (hutc : t.view.known = true → t.view.now = t.now + offset) (hzero : at_ + offset ≠ 0)
    (hat : at_ ≤ clock) (hclock : clock ≤ t.now) :
    (s.begin sha256 mode t).Waits offset at_ t.now := by
  unfold Schedule.begin
  rw [if_pos hmode]
  split_ifs with hbegin
  · refine ⟨h.recorded, .inr (.inr ?_)⟩
    dsimp only
    rw [Function.update_self]
    exact firstJob_ge h.recorded hzero (hutc (Bool.and_eq_true_iff.mp hbegin).1) (hat.trans hclock)
  · exact ⟨h.recorded, h.rest.imp_right fun h => h.imp_right fun h => by omega⟩

/-- The requests are spaced, and the last one counts for what is in memory and on the disk. -/
structure Asking.Spaced (mode : Mode) (offset : ℤ) (x : Asking) : Prop where
  backed : x.schedule.Backed mode
  chain : x.jobs.IsChain fun later earlier => earlier.at_ + seedRetryFloor ≤ later.at_
  last : ∀ j ∈ x.jobs.head?, j.at_ ≤ x.clock ∧ j.at_ + offset ≠ 0 ∧ x.saved = j.at_ + offset ∧
    x.schedule.Waits offset j.at_ x.clock

/-- Every step keeps the attempts apart. -/
theorem spaced_step (hmode : mode.isSeed = true) (h : x.Spaced mode offset) (hlater : x.Later e)
    (he : e.Trusted offset) (hs : x.step sha256 mode e = some y) : y.Spaced mode offset := by
  have hbacked := backed_step h.backed hs
  have hcount : ∀ i, i < mode.count → i = 0 := by
    intro i hi
    cases mode with
    | seed sd => exact Nat.lt_one_iff.mp hi
    | _ => cases hmode
  cases e with
  | turn t ok =>
    obtain ⟨rfl, hutc⟩ := he
    have hbegin : ∀ j ∈ x.jobs.head?,
        (x.schedule.begin sha256 mode t).Waits offset j.at_ t.now := by
      intro j hj
      obtain ⟨hat, hzero, -, hwaits⟩ := h.last j hj
      exact waits_begin hmode hwaits (fun hk => (hutc hk).1) hzero hat hlater
    simp only [Asking.step] at hs
    split at hs <;> rename_i hjob <;> cases hs
    · refine ⟨hbacked, h.chain, fun j hj => ?_⟩
      obtain ⟨hat, hzero, hsaved, -⟩ := h.last j hj
      exact ⟨hat.trans hlater, hzero, hsaved, hbegin j hj⟩
    · obtain ⟨hk, hidle, hvalid, -, hdue⟩ := job_eq_some hjob
      obtain rfl := hcount _ hvalid
      obtain ⟨hnow, hne⟩ := hutc hk
      refine ⟨hbacked, List.isChain_cons.mpr ⟨fun j hj => ?_, h.chain⟩, ?_⟩
      · -- the schedule has begun and nothing is under way, so the floor is over
        rcases (hbegin j hj).rest with hi | hi | hi
        · cases (begin_known hk).symm.trans hi
        · exact absurd hidle hi
        · exact hi.trans (max_le hdue le_rfl)
      · rintro j ⟨⟩
        simp only [Schedule.start, hmode, Bool.and_self, if_true]
        exact ⟨le_rfl, hnow ▸ hne, hnow, hnow, .inr (.inl (Option.some_ne_none 0))⟩
  | answer a now now' random resaved =>
    obtain ⟨i, hin, rfl⟩ := Option.map_eq_some_iff.mp hs
    obtain rfl := hcount i (h.backed.begun i hin).2
    refine ⟨hbacked, h.chain, fun j hj => ?_⟩
    obtain ⟨hat, hzero, hsaved, hwaits⟩ := h.last j hj
    obtain ⟨hpause, hnext, -⟩ := answered_next mode (h.backed.peers 0) now random a
    obtain ⟨hnow, hnow'⟩ := hlater
    refine ⟨hat.trans (hnow.trans hnow'), hzero, ?_, hwaits.recorded, .inr (.inr ?_)⟩
    · rw [hwaits.recorded, hsaved, ite_self]
    · simp only [Schedule.answered, Function.update_self]
      omega
  | restart now =>
    cases hs
    refine ⟨hbacked, h.chain, fun j hj => ?_⟩
    obtain ⟨hat, hzero, hsaved, -⟩ := h.last j hj
    exact ⟨hat.trans hlater, hzero, hsaved, hsaved, .inl rfl⟩

/-! ## What an answer asks for -/

variable {base : List Job} {T : ℤ} {stop : Bool}

/-- Since the jobs `base`, the provider `i` has not been asked before the time `T`; that time is
past, or the schedule waits for it; and if it has stopped us, it is not asked at all. -/
structure Asking.Obeys (base : List Job) (i : ℕ) (T : ℤ) (stop : Bool) (x : Asking) : Prop where
  begun : x.schedule.initialSchedule = false
  jobs : ∃ newer, x.jobs = newer ++ base ∧ ∀ j ∈ newer, j.peer = i → T ≤ j.at_ ∧ stop = false
  waits : T ≤ x.clock ∧ stop = false ∨ x.schedule.inflight ≠ some i ∧
    T ≤ (x.schedule.peers i).next ∧ (stop = true → (x.schedule.peers i).stopped = true)

/-- Every step obeys the wait that a peer has asked for. -/
theorem obeys_step (h : x.Obeys base i T stop) (hlater : x.Later e) (he : e.isRestart = false)
    (hs : x.step sha256 mode e = some y) : y.Obeys base i T stop := by
  obtain ⟨hbegun, ⟨newer, hjobs, hnewer⟩, hwaits⟩ := h
  cases e with
  | turn t ok =>
    simp only [Asking.step, begin_of_started hbegun] at hs
    split at hs <;> rename_i hjob <;> cases hs
    · exact ⟨hbegun, ⟨newer, hjobs, hnewer⟩, hwaits.imp_left fun h => ⟨h.1.trans hlater, h.2⟩⟩
    · rename_i k
      obtain ⟨-, -, -, hstopped, hnext⟩ := job_eq_some hjob
      have hdue : k = i → T ≤ t.now ∧ stop = false := by
        rintro rfl
        rcases hwaits with ⟨hT, hstop⟩ | ⟨-, hT, hstop⟩
        · exact ⟨hT.trans hlater, hstop⟩
        · exact ⟨hT.trans hnext, Bool.eq_false_iff.mpr fun hs =>
            by cases hstopped.symm.trans (hstop hs)⟩
      refine ⟨hbegun, ⟨_ :: newer, by rw [hjobs]; rfl, fun j hj hpeer => ?_⟩, ?_⟩
      · rcases List.mem_cons.mp hj with rfl | hj
        · exact hdue hpeer
        · exact hnewer j hj hpeer
      · rcases eq_or_ne k i with hk | hk
        · exact .inl (hdue hk)
        · exact hwaits.imp (fun h => ⟨h.1.trans hlater, h.2⟩) fun h =>
            ⟨by simpa [Schedule.start] using hk, h.2⟩
  | answer a now now' random resaved =>
    obtain ⟨k, hin, rfl⟩ := Option.map_eq_some_iff.mp hs
    refine ⟨hbegun, ⟨newer, hjobs, hnewer⟩,
      hwaits.imp (fun h => ⟨h.1.trans (hlater.1.trans hlater.2), h.2⟩) ?_⟩
    rintro ⟨hidle, hrest⟩
    have hne : i ≠ k := by
      rintro rfl
      exact hidle hin
    refine ⟨(Option.some_ne_none i).symm, ?_⟩
    simp only [Schedule.answered, Function.update_of_ne hne]
    exact hrest
  | restart now => cases he

/-- The answer stops us. -/
def Answer.stops : Answer → Bool
  | .peerError e => e.stop
  | _ => false

end

/-- **The publisher's floor.**  However turns, answers and restarts follow one another, consecutive
requests to a publisher are fifteen minutes apart at least, if the attempts could be saved and the
daemon's UTC, where it is known, runs with the clock of the schedule. -/
theorem publisher_floor (sha256 : Bytes → Digest) (sd : Seed) (lastAttempt start offset : ℤ)
    (es : List AskEvent) (x : Asking)
    (htrusted : Runs.Along (Asking.step sha256 (.seed sd)) (fun x e => x.Later e ∧ e.Trusted offset)
      (.start lastAttempt start) es)
    (hrun : Runs.run (Asking.step sha256 (.seed sd)) (.start lastAttempt start) es = some x) :
    x.jobs.IsChain fun later earlier => earlier.at_ + seedRetryFloor ≤ later.at_ := by
  have hstart : (Asking.start lastAttempt start).Spaced (.seed sd) offset :=
    ⟨backed_new _, List.isChain_nil, by rintro j ⟨⟩⟩
  have h : x.Spaced (.seed sd) offset := Runs.run_invariant
    (fun _ _ _ hx he hs => spaced_step rfl hx he.1 he.2 hs) hstart htrusted hrun
  exact h.chain

/-- A turn that sees UTC, some minutes after the start of the schedule's clock. -/
def turnAt (minutes : ℤ) : AskEvent :=
  .turn ⟨minutes * minute, ⟨minutes * minute + 1, true, 0, 0⟩, .empty, false, none⟩ true

/-- A daemon asks and is restarted at once; the new process does not ask before the floor is over.
-/
theorem publisher_floor_restart :
    ∃ x, Runs.run (Asking.step firstBytes (.seed .nist)) (.start 0 0)
        [turnAt 1, .restart minute, turnAt 2, turnAt 15, turnAt 16] = some x ∧
      x.jobs.map (·.at_) = [16 * minute, minute] ∧
      x.jobs.IsChain fun later earlier => earlier.at_ + seedRetryFloor ≤ later.at_ := by
  have h : (Runs.run (Asking.step firstBytes (.seed .nist)) (.start 0 0)
      [turnAt 1, .restart minute, turnAt 2, turnAt 15, turnAt 16]).map (·.jobs.map (·.at_)) =
      some [16 * minute, minute] := by decide +kernel
  obtain ⟨x, hx, hjobs⟩ := Option.map_eq_some_iff.mp h
  exact ⟨x, hx, hjobs, publisher_floor firstBytes .nist 0 0 1 _ x (by decide +kernel) hx⟩

/-- **The provider's word.**  As long as the process lives, no job after an answer asks that
provider sooner than the answer allows: after a success not before nine tenths of the interval have
passed, or the whole of a peer's; after an error not before the floor, a day for a request that was
refused as wrong, or the `Retry-After`; and never again a peer that has stopped us. -/
theorem answer_obeyed (sha256 : Bytes → Digest) (mode : Mode) (lastAttempt start : ℤ)
    (es es' : List AskEvent) (x x₁ x₂ : Asking) (i : ℕ) (a : Answer) (now now' : ℤ)
    (random : Option ℕ) (resaved : Bool)
    (hrun : Runs.run (Asking.step sha256 mode) (.start lastAttempt start) es = some x)
    (hin : x.schedule.inflight = some i)
    (hanswer : x.step sha256 mode (.answer a now now' random resaved) = some x₁)
    (halive : Runs.Along (Asking.step sha256 mode) (fun x e => x.Later e ∧ e.isRestart = false) x₁
      es')
    (hrun' : Runs.run (Asking.step sha256 mode) x₁ es' = some x₂) :
    ∃ newer, x₂.jobs = newer ++ x₁.jobs ∧
      ∀ j ∈ newer, j.peer = i → now + a.pause mode ≤ j.at_ ∧ a.stops = false := by
  have hbacked : x.schedule.Backed mode := Runs.run_invariant (C := fun _ _ => True)
    (fun _ _ _ hx _ hs => backed_step hx hs) (backed_new _)
    (Runs.along_of_forall (fun _ _ => trivial) _ _) hrun
  have h₁ : x₁.Obeys x₁.jobs i (now + a.pause mode) a.stops := by
    obtain ⟨k, hk, rfl⟩ := Option.map_eq_some_iff.mp hanswer
    cases hin.symm.trans hk
    refine ⟨(hbacked.begun i hin).1, ⟨[], rfl, by simp⟩, .inr ⟨(Option.some_ne_none i).symm, ?_⟩⟩
    simp only [Schedule.answered, Function.update_self]
    refine ⟨(answered_next mode (hbacked.peers i) now random a).2.1, fun hstop => ?_⟩
    cases a with
    | peerError e => exact hstop
    | _ => cases hstop
  exact (Runs.run_invariant (fun _ _ _ hx he hs => obeys_step hx he.1 he.2 hs) h₁ halive hrun').jobs

/-- A peer that asks for an hour is asked again after it, and the other one meanwhile. -/
theorem answer_obeyed_peers :
    let step := Asking.step firstBytes (.peers [⟨[], 1⟩, ⟨[], 2⟩])
    let a := AskEvent.answer (.peerError ⟨.unsupported, hour, 0, false⟩) minute minute none false
    let es := [turnAt 2, .answer .ok (2 * minute) (2 * minute) none false, turnAt 60, turnAt 64]
    ∃ x x₁ x₂ newer, Runs.run step (.start 0 0) [turnAt 1] = some x ∧ step x a = some x₁ ∧
      Runs.run step x₁ es = some x₂ ∧ x₂.jobs = newer ++ x₁.jobs ∧
      x₂.jobs.map (fun j => (j.peer, j.at_)) = [(0, 64 * minute), (1, 2 * minute), (0, minute)] ∧
      ∀ j ∈ newer, j.peer = 0 → minute + hour ≤ j.at_ := by
  intro step a es
  have h : ((Runs.run step (.start 0 0) [turnAt 1]).bind fun x => (step x a).bind fun x₁ =>
      (Runs.run step x₁ es).map fun x₂ =>
        (x.schedule.inflight, x₂.jobs.map fun j => (j.peer, j.at_))) =
      some (some 0, [(0, 64 * minute), (1, 2 * minute), (0, minute)]) := by decide +kernel
  simp only [Option.bind_eq_some_iff, Option.map_eq_some_iff, Prod.mk.injEq] at h
  obtain ⟨x, hx, x₁, hx₁, x₂, hx₂, hin, hjobs⟩ := h
  have hlater : Runs.Along step (fun x e => x.Later e ∧ e.isRestart = false) (.start 0 0)
      (([turnAt 1] ++ [a]) ++ es) := by decide +kernel
  have halive := (Runs.along_append.mp hlater).2 x₁
    (Runs.run_append.mpr ⟨x, hx, Runs.run_cons_eq_some.mpr ⟨x₁, hx₁, rfl⟩⟩)
  obtain ⟨newer, hnewer, h⟩ :=
    answer_obeyed firstBytes _ 0 0 _ es x x₁ x₂ 0 _ _ _ _ _ hx hin hx₁ halive hx₂
  exact ⟨x, x₁, x₂, newer, hx, hx₁, hx₂, hnewer, hjobs, fun j hj hp => (h j hj hp).1⟩

end Carillon.Leap
