/-
# The clock epoch: what the engine admits

The engine's side of the epoch protocol, interleaved with the sources at the grain of
their shared variables: the epoch counter `gen`, a reset flag per source and the queue of
measurements.  A leap raises the flags between the two increments of the counter; a step
raises them after both (`beginEpochChange`, `crossLeap`, `handle` and `stale` in
`engine.go`).  When the engine steps, and whether a leap has been crossed, is left open:
a step or a leap may come at any point where the engine is between calls, and a leap
before a measurement is judged as well.
-/
import Carillon.Engine.Drivers
import Carillon.Engine.Leap
import Carillon.Lib.Runs

namespace Carillon

open Discipline (HasSqrt Measurement)
open Source (Exchange Ntp NtpConfig NtpEvent)
open Refclock (Pps PpsConfig PpsEvent Pulse)

/-! ## The sources' goroutines -/

/-- The goroutine of a source. -/
inductive Goroutine (K : Type) where
  | ntp (cfg : NtpConfig) (w : Epoch.Worker (Ntp K) (Exchange K) (Measurement K))
  | pps (cfg : PpsConfig K) (w : Epoch.Worker (Pps K) (Pulse K) (Measurement K))

/-- A configured source. -/
inductive SourceConfig (K : Type) where
  | ntp (cfg : NtpConfig) (peer : Ntp.RefID)
  | pps (cfg : PpsConfig K)

/-- An atomic step of a goroutine. -/
inductive Goroutine.Label (K : Type) where
  | ntp (l : Epoch.Label (Exchange K) (NtpEvent × K))
  | pps (l : Epoch.Label (Pulse K) (PpsEvent K))

variable {K : Type}

/-- `Reset`: the flag is raised. -/
def Goroutine.reset : Goroutine K → Goroutine K
  | .ntp cfg w => .ntp cfg { w with flag := true }
  | .pps cfg w => .pps cfg { w with flag := true }

variable [Field K] [LinearOrder K] [HasSqrt K]

omit [LinearOrder K] [HasSqrt K] in
/-- A source that has not started. -/
def Goroutine.new : SourceConfig K → Goroutine K
  | .ntp cfg peer => .ntp cfg ⟨.new cfg peer, false, .idle, []⟩
  | .pps cfg => .pps cfg ⟨.new cfg, false, .idle, []⟩

/-- One atomic step of a goroutine under an epoch, and what it sends. -/
def Goroutine.step (gen : ℕ) : Goroutine K → Goroutine.Label K →
    Option (Goroutine K × Option (Measurement K))
  | .ntp cfg w, .ntp l => (w.step (ntpDriver cfg) gen l).map fun r => (.ntp cfg r.1, r.2)
  | .pps cfg w, .pps l => (w.step (ppsDriver cfg) gen l).map fun r => (.pps cfg r.1, r.2)
  | .ntp _ _, .pps _ | .pps _ _, .ntp _ => none

/-- The offset and the jitter of a measurement can be computed from observations of the
source that were taken wholly inside the epoch. -/
def Goroutine.Supports (gen : ℕ) : Goroutine K → Measurement K → Prop
  | .ntp cfg w => Epoch.Supported (ntpEstimates cfg) gen w.log
  | .pps cfg w => Epoch.Supported (ppsEstimates cfg) gen w.log

instance (gen : ℕ) (g : Goroutine K) (m : Measurement K) : Decidable (g.Supports gen m) :=
  match g with
  | .ntp cfg w => inferInstanceAs (Decidable (Epoch.Supported (ntpEstimates cfg) gen w.log m))
  | .pps cfg w => inferInstanceAs (Decidable (Epoch.Supported (ppsEstimates cfg) gen w.log m))

/-! ## The engine -/

/-- Where the engine is in a change of the epoch.  The lists are the sources whose flag
is still to be raised. -/
inductive ChangePc where
  | settled
  /-- `crossLeap`, between the increments. -/
  | leaping (owed : List ℕ)
  /-- `handle`, between the increments, before and after the clock is stepped. -/
  | stepping
  | stepped
  /-- `handle`, after the step, until `ActionResetFilters` is done. -/
  | resetting (owed : List ℕ)

/-- A change has begun, and the flag of this source is not raised yet. -/
def ChangePc.owes : ChangePc → ℕ → Bool
  | .settled, _ => false
  | .leaping owed, i | .resetting owed, i => decide (i ∈ owed)
  | .stepping, _ | .stepped, _ => true

/-- A measurement that the engine admitted, with the epoch and its source then. -/
structure Admission (K : Type) where
  gen : ℕ
  source : Goroutine K
  measurement : Measurement K

/-- The daemon: the engine and its sources.  A measurement in the queue carries the
index of its sender. -/
structure Daemon (K : Type) where
  gen : ℕ
  pc : ChangePc
  sources : List (Goroutine K)
  queue : List (ℕ × Measurement K)
  held : Option (ℕ × Measurement K)
  admitted : List (Admission K)

/-- The atomic steps. -/
inductive DaemonLabel (K : Type) where
  | source (i : ℕ) (l : Goroutine.Label K)
  | beginLeap
  | finishLeap
  | beginStep
  | stepClock
  | finishStep
  | resetSource (i : ℕ)
  | resetDone
  | dequeue
  | judge

/-- The capacity of the queue, `meas`. -/
def queueCapacity : ℕ := 64

omit [Field K] [LinearOrder K] [HasSqrt K] in
/-- What `stale` says of a measurement whose source runs: it is not stamped, or it is of
the current settled epoch. -/
def admits (gen : ℕ) (m : Measurement K) : Bool :=
  decide (m.generation = 0) || (decide (m.generation = gen) && decide (gen % 2 = 0))

/-- A source's step; a send waits while the queue is full. -/
def Daemon.stepSource (d : Daemon K) (i : ℕ) (l : Goroutine.Label K) : Option (Daemon K) :=
  match d.sources[i]? with
  | none => none
  | some g => match g.step d.gen l with
    | none => none
    | some (g', none) => some { d with sources := d.sources.set i g' }
    | some (g', some m) =>
      if d.queue.length < queueCapacity then
        some { d with sources := d.sources.set i g', queue := d.queue ++ [(i, m)] }
      else none

omit [Field K] [LinearOrder K] [HasSqrt K] in
/-- One flag is raised. -/
def Daemon.resetSource (d : Daemon K) (i : ℕ) : Daemon K :=
  { d with sources := d.sources.modify i Goroutine.reset }

omit [Field K] [LinearOrder K] [HasSqrt K] in
/-- The measurement that was taken off the queue is applied or dropped. -/
def Daemon.judge (d : Daemon K) (i : ℕ) (m : Measurement K) : Daemon K :=
  { d with
    held := none
    admitted := if admits d.gen m
      then d.admitted ++ (d.sources[i]?.map fun g => (⟨d.gen, g, m⟩ : Admission K)).toList
      else d.admitted }

/-- One atomic step of the daemon. -/
def Daemon.step (d : Daemon K) : DaemonLabel K → Option (Daemon K)
  | .source i l => d.stepSource i l
  | .beginLeap => match d.pc with
    | .settled => some { d with gen := d.gen + 1, pc := .leaping (List.range d.sources.length) }
    | _ => none
  | .finishLeap => match d.pc with
    | .leaping [] => some { d with gen := d.gen + 1, pc := .settled }
    | _ => none
  | .beginStep => match d.pc, d.held with
    | .settled, none => some { d with gen := d.gen + 1, pc := .stepping }
    | _, _ => none
  | .stepClock => match d.pc with
    | .stepping => some { d with pc := .stepped }
    | _ => none
  | .finishStep => match d.pc with
    | .stepped =>
      some { d with gen := d.gen + 1, pc := .resetting (List.range d.sources.length) }
    | _ => none
  | .resetSource i => match d.pc with
    | .leaping owed => if i ∈ owed
      then some { d.resetSource i with pc := .leaping (owed.filter (· ≠ i)) } else none
    | .resetting owed => if i ∈ owed
      then some { d.resetSource i with pc := .resetting (owed.filter (· ≠ i)) } else none
    | _ => none
  | .resetDone => match d.pc with
    | .resetting [] => some { d with pc := .settled }
    | _ => none
  | .dequeue => match d.pc, d.held, d.queue with
    | .settled, none, x :: queue => some { d with queue := queue, held := some x }
    | _, _, _ => none
  | .judge => match d.pc, d.held with
    | .settled, some (i, m) => some (d.judge i m)
    | _, _ => none

omit [LinearOrder K] [HasSqrt K] in
/-- The daemon at its start, in `FirstEpoch`. -/
def Daemon.new (sources : List (SourceConfig K)) : Daemon K where
  gen := 2
  pc := .settled
  sources := sources.map Goroutine.new
  queue := []
  held := none
  admitted := []

omit [Field K] [LinearOrder K] [HasSqrt K] in
/-- What `stale` says of a measurement whose source has not stopped. -/
theorem stale_eq_not_admits (e : Engine K) (m : Measurement K)
    (hrunning : (e.sourceErrors.contains m.source && !e.restarting.contains m.source) = false) :
    e.stale m = !admits e.gen m := by
  unfold Engine.stale admits
  rw [hrunning]
  simp

/-! ## Swaps in a safe order -/

/-- The swap of a reset flag comes in a safe order: in the epoch of the observation while
no flag is outstanding, or in a later epoch before the flag of its change is raised. -/
def Goroutine.SwapOk (gen : ℕ) (owed : Bool) : Goroutine K → Goroutine.Label K → Prop
  | .ntp cfg w, .ntp l => w.SwapOk (ntpDriver cfg) gen owed l
  | .pps cfg w, .pps l => w.SwapOk (ppsDriver cfg) gen owed l
  | .ntp _ _, .pps _ | .pps _ _, .ntp _ => True

@[inherit_doc Goroutine.SwapOk]
def Daemon.SwapOk (d : Daemon K) : DaemonLabel K → Prop
  | .source i l => ∀ g ∈ d.sources[i]?, g.SwapOk d.gen (d.pc.owes i) l
  | _ => True

instance (gen : ℕ) (owed : Bool) (g : Goroutine K) (l : Goroutine.Label K) :
    Decidable (g.SwapOk gen owed l) :=
  match g, l with
  | .ntp cfg w, .ntp l => inferInstanceAs (Decidable (w.SwapOk (ntpDriver cfg) gen owed l))
  | .pps cfg w, .pps l => inferInstanceAs (Decidable (w.SwapOk (ppsDriver cfg) gen owed l))
  | .ntp _ _, .pps _ | .pps _ _, .ntp _ => .isTrue trivial

instance (d : Daemon K) (l : DaemonLabel K) : Decidable (d.SwapOk l) :=
  match l with
  | .source i l =>
    inferInstanceAs (Decidable (∀ g ∈ d.sources[i]?, g.SwapOk d.gen (d.pc.owes i) l))
  | .beginLeap | .finishLeap | .beginStep | .stepClock | .finishStep | .resetSource _ | .resetDone
  | .dequeue | .judge => .isTrue trivial

/-! ## The invariant of a goroutine -/

/-- The invariant of its worker. -/
def Goroutine.Inv (gen : ℕ) (owed : Bool) : Goroutine K → Prop
  | .ntp cfg w => w.Inv (ntpHolds cfg) (ntpEstimates cfg) (ntpDriver cfg) gen owed
  | .pps cfg w => w.Inv ppsHolds (ppsEstimates cfg) (ppsDriver cfg) gen owed

/-- A stamped estimate is of an earlier epoch, or supported by this one. -/
def Goroutine.Fresh (gen : ℕ) : Goroutine K → Measurement K → Prop
  | .ntp cfg w => Epoch.Fresh (ntpEstimates cfg) gen w.log
  | .pps cfg w => Epoch.Fresh (ppsEstimates cfg) gen w.log

theorem inv_new (gen : ℕ) (c : SourceConfig K) : (Goroutine.new c).Inv gen false := by
  cases c with
  | ntp cfg peer =>
    exact ⟨fun _ g hg => absurd hg (Option.not_mem_none g), ⟨[], rfl⟩,
      fun _ => .inr (.inr ⟨[], List.Sublist.refl _, rfl, fun o ho => absurd ho List.not_mem_nil⟩),
      trivial⟩
  | pps cfg =>
    exact ⟨fun _ g hg => absurd hg (Option.not_mem_none g), ⟨[], rfl⟩,
      fun _ => .inr (.inr ⟨[], List.Sublist.refl _, rfl, fun o ho => absurd ho List.not_mem_nil⟩),
      trivial⟩

variable {g : Goroutine K} {gen : ℕ}

theorem Goroutine.Inv.begin_ {owed : Bool} (h : g.Inv gen owed) :
    g.Inv (gen + 1) true := by
  cases g with
  | ntp cfg w => exact Epoch.Worker.Inv.begin_ h
  | pps cfg w => exact Epoch.Worker.Inv.begin_ h

theorem Goroutine.Inv.finish {gen : ℕ} {owed : Bool} {g : Goroutine K} (h : g.Inv gen owed)
    (hodd : gen % 2 = 1) : g.Inv (gen + 1) owed := by
  cases g with
  | ntp cfg w => exact Epoch.Worker.Inv.finish h hodd
  | pps cfg w => exact Epoch.Worker.Inv.finish h hodd

theorem Goroutine.Inv.reset (h : g.Inv gen true) :
    g.reset.Inv gen false := by
  cases g with
  | ntp cfg w => exact Epoch.Worker.Inv.raise h
  | pps cfg w => exact Epoch.Worker.Inv.raise h

variable {m : Measurement K}

theorem Goroutine.Fresh.later (h : g.Fresh gen m) :
    g.Fresh (gen + 1) m := by
  cases g with
  | ntp cfg w => exact Epoch.Fresh.later h
  | pps cfg w => exact Epoch.Fresh.later h

theorem Goroutine.Fresh.reset (h : g.Fresh gen m) :
    g.reset.Fresh gen m := by
  cases g with
  | ntp cfg w => exact h
  | pps cfg w => exact h

/-- A fresh measurement that bears the epoch is supported by it. -/
theorem Goroutine.Fresh.supports (h : g.Fresh gen m) (hvalid : m.valid = true)
    (hstamp : m.generation ≠ 0) (hgen : m.generation = gen) :
    g.Supports gen m := by
  cases g with
  | ntp cfg w => exact (h hvalid hstamp).2 hgen
  | pps cfg w => exact (h hvalid hstamp).2 hgen

/-- A goroutine's step keeps the invariant and what was fresh, and sends what is. -/
theorem Goroutine.Inv.step {owed : Bool} {g g' : Goroutine K} (h : g.Inv gen owed)
    {l : Goroutine.Label K} {out : Option (Measurement K)} (hs : g.step gen l = some (g', out))
    (hswap : g.SwapOk gen owed l) :
    g'.Inv gen owed ∧ (∀ m, g.Fresh gen m → g'.Fresh gen m) ∧ ∀ m ∈ out, g'.Fresh gen m := by
  cases g with
  | ntp cfg w =>
    cases l with
    | pps l => cases hs
    | ntp l =>
      obtain ⟨⟨w', o⟩, hw, heq⟩ := Option.map_eq_some_iff.mp hs
      cases heq
      obtain ⟨hinv, hlog, hout⟩ :=
        Epoch.Worker.Inv.step (ntpDriver_lawful cfg) h (Epoch.Worker.step_spec hw) hswap
      exact ⟨hinv, fun m hm => Epoch.Fresh.mono hm hlog, hout⟩
  | pps cfg w =>
    cases l with
    | ntp l => cases hs
    | pps l =>
      obtain ⟨⟨w', o⟩, hw, heq⟩ := Option.map_eq_some_iff.mp hs
      cases heq
      obtain ⟨hinv, hlog, hout⟩ :=
        Epoch.Worker.Inv.step (ppsDriver_lawful cfg) h (Epoch.Worker.step_spec hw) hswap
      exact ⟨hinv, fun m hm => Epoch.Fresh.mono hm hlog, hout⟩

/-! ## The invariant of the daemon -/

/-- An admitted estimate that is stamped is supported by the settled epoch it was
admitted in. -/
def Admission.Good (a : Admission K) : Prop :=
  a.measurement.valid = true → a.measurement.generation ≠ 0 →
    a.gen % 2 = 0 ∧ a.source.Supports a.gen a.measurement

/-- The counter is odd here. -/
def ChangePc.odd : ChangePc → Bool
  | .settled | .resetting _ => false
  | .leaping _ | .stepping | .stepped => true

structure Daemon.Inv (d : Daemon K) : Prop where
  parity : d.gen % 2 = if d.pc.odd then 1 else 0
  sources : ∀ (i : ℕ) g, d.sources[i]? = some g → g.Inv d.gen (d.pc.owes i)
  sent : ∀ x, x ∈ d.queue ∨ x ∈ d.held → ∃ g, d.sources[x.1]? = some g ∧ g.Fresh d.gen x.2
  admitted : ∀ a ∈ d.admitted, a.Good

theorem daemonInv_new (sources : List (SourceConfig K)) : (Daemon.new sources).Inv where
  parity := by
    show 2 % 2 = if ChangePc.settled.odd then 1 else 0
    rfl
  sources i g hg := by
    unfold Daemon.new at hg
    rw [List.getElem?_map] at hg
    obtain ⟨c, -, rfl⟩ := Option.map_eq_some_iff.mp hg
    exact inv_new 2 c
  sent x hx := by
    rcases hx with hx | hx
    · exact absurd hx List.not_mem_nil
    · exact absurd hx (Option.not_mem_none x)
  admitted a ha := absurd ha List.not_mem_nil

variable {d : Daemon K}

/-- The counter moves on. -/
theorem Daemon.Inv.advance (h : d.Inv) {pc : ChangePc}
    (hparity : (d.gen + 1) % 2 = if pc.odd then 1 else 0)
    (hsources : ∀ (i : ℕ) g, d.sources[i]? = some g → g.Inv (d.gen + 1) (pc.owes i)) :
    ({ d with gen := d.gen + 1, pc := pc } : Daemon K).Inv where
  parity := hparity
  sources := hsources
  sent x hx := by
    obtain ⟨g, hg, hfresh⟩ := h.sent x hx
    exact ⟨g, hg, hfresh.later⟩
  admitted := h.admitted

/-- Another place in a change with the same debts. -/
theorem Daemon.Inv.relocate (h : d.Inv) {pc : ChangePc} (hodd : pc.odd = d.pc.odd)
    (howes : ∀ i, pc.owes i = d.pc.owes i) : ({ d with pc := pc } : Daemon K).Inv where
  parity := by
    dsimp only
    rw [hodd]
    exact h.parity
  sources i g hg := by
    dsimp only
    rw [howes]
    exact h.sources i g hg
  sent := h.sent
  admitted := h.admitted

/-- The measurements in flight move on within the engine. -/
theorem Daemon.Inv.pass (h : d.Inv) {queue : List (ℕ × Measurement K)}
    {held : Option (ℕ × Measurement K)}
    (hsent : ∀ x, x ∈ queue ∨ x ∈ held → x ∈ d.queue ∨ x ∈ d.held) :
    ({ d with queue := queue, held := held } : Daemon K).Inv :=
  ⟨h.parity, h.sources, fun x hx => h.sent x (hsent x hx), h.admitted⟩

omit [Field K] [LinearOrder K] [HasSqrt K] in
theorem mem_range_of_getElem? {l : List (Goroutine K)} {i : ℕ} (h : l[i]? = some g) :
    decide (i ∈ List.range l.length) = true := by
  obtain ⟨hi, -⟩ := List.getElem?_eq_some_iff.mp h
  simpa using hi

/-- A flag is raised; the others are owed as before. -/
theorem Daemon.Inv.resetSource (h : d.Inv) {i : ℕ} {pc : ChangePc} (hodd : pc.odd = d.pc.odd)
    (howed : d.pc.owes i = true) (hpaid : pc.owes i = false)
    (hothers : ∀ j, j ≠ i → pc.owes j = d.pc.owes j) :
    ({ d.resetSource i with pc := pc } : Daemon K).Inv where
  parity := by
    show d.gen % 2 = if pc.odd then 1 else 0
    rw [hodd]
    exact h.parity
  sources j g hg := by
    change (d.sources.modify i Goroutine.reset)[j]? = some g at hg
    show g.Inv d.gen (pc.owes j)
    rw [List.getElem?_modify] at hg
    split at hg
    case isTrue heq =>
      subst heq
      obtain ⟨x, hx, rfl⟩ := Option.map_eq_some_iff.mp hg
      have hinv := h.sources i x hx
      rw [howed] at hinv
      rw [hpaid]
      exact hinv.reset
    case isFalse hne =>
      rw [hothers j (Ne.symm hne)]
      refine h.sources j g ?_
      simpa using hg
  sent x hx := by
    obtain ⟨g, hg, hfresh⟩ := h.sent x hx
    show ∃ g, (d.sources.modify i Goroutine.reset)[x.1]? = some g ∧ g.Fresh d.gen x.2
    rw [List.getElem?_modify]
    split
    · exact ⟨g.reset, by rw [hg]; rfl, hfresh.reset⟩
    · exact ⟨g, by simpa using hg, hfresh⟩
  admitted := h.admitted

/-- A flag is raised out of those that are owed at a place of a change. -/
theorem Daemon.Inv.pay (h : d.Inv) {at_ : List ℕ → ChangePc} {owed : List ℕ} {i : ℕ}
    (hpc : d.pc = at_ owed) (hi : i ∈ owed) (hodd : ∀ l, (at_ l).odd = (at_ owed).odd)
    (howes : ∀ l j, (at_ l).owes j = decide (j ∈ l)) :
    ({ d.resetSource i with pc := at_ (owed.filter (· ≠ i)) } : Daemon K).Inv := by
  refine h.resetSource ?_ ?_ ?_ fun j hne => ?_
  · rw [hpc, hodd]
  · rw [hpc, howes]
    exact decide_eq_true hi
  · rw [howes]
    simp
  · rw [hpc, howes, howes]
    simp [hne]

/-- A source's step. -/
theorem Daemon.Inv.stepSource (h : d.Inv) {i : ℕ} {l : Goroutine.Label K} {d' : Daemon K}
    (hs : d.stepSource i l = some d') (hswap : d.SwapOk (.source i l)) : d'.Inv := by
  unfold Daemon.stepSource at hs
  split at hs
  · cases hs
  case h_2 g hg =>
    have hi := (List.getElem?_eq_some_iff.mp hg).1
    -- what a step of this source leaves of the invariant, whatever it sends
    have hset : ∀ g' out, g.step d.gen l = some (g', out) →
        (∀ (j : ℕ) x, (d.sources.set i g')[j]? = some x → x.Inv d.gen (d.pc.owes j)) ∧
        (∀ x, x ∈ d.queue ∨ x ∈ d.held →
          ∃ y, (d.sources.set i g')[x.1]? = some y ∧ y.Fresh d.gen x.2) ∧
        ∀ m ∈ out, g'.Fresh d.gen m := by
      intro g' out hstep
      obtain ⟨hinv, hkeep, hout⟩ := (h.sources i g hg).step hstep (hswap g hg)
      refine ⟨fun j x hx => ?_, fun x hx => ?_, hout⟩
      · by_cases heq : i = j
        · subst heq
          rw [List.getElem?_set_self hi] at hx
          cases hx
          exact hinv
        · rw [List.getElem?_set_ne heq] at hx
          exact h.sources j x hx
      · obtain ⟨y, hy, hfresh⟩ := h.sent x hx
        by_cases heq : i = x.1
        · subst heq
          rw [hg] at hy
          cases hy
          exact ⟨g', List.getElem?_set_self hi, hkeep _ hfresh⟩
        · exact ⟨y, by rw [List.getElem?_set_ne heq]; exact hy, hfresh⟩
    split at hs
    · cases hs
    case h_2 g' hstep =>
      cases hs
      obtain ⟨hsources, hsent, -⟩ := hset g' none hstep
      exact ⟨h.parity, hsources, hsent, h.admitted⟩
    case h_3 g' m hstep =>
      split at hs
      · cases hs
        obtain ⟨hsources, hsent, hout⟩ := hset g' (some m) hstep
        refine ⟨h.parity, hsources, fun x hx => ?_, h.admitted⟩
        rcases hx with hx | hx
        · rcases List.mem_append.mp hx with hx | hx
          · exact hsent x (.inl hx)
          · rw [List.mem_singleton.mp hx]
            exact ⟨g', by simp [hi], hout m rfl⟩
        · exact hsent x (.inr hx)
      · cases hs

/-- The measurement that is judged was fresh, so it is good if it is admitted. -/
theorem Daemon.Inv.judge (h : d.Inv) {i : ℕ} (hheld : d.held = some (i, m))
    (hsettled : d.pc = .settled) : (d.judge i m).Inv := by
  obtain ⟨g, hg, hfresh⟩ := h.sent (i, m) (.inr hheld)
  have hparity := h.parity
  rw [hsettled] at hparity
  refine ⟨h.parity, h.sources, fun x hx => ?_, ?_⟩
  · rcases hx with hx | hx
    · exact h.sent x (.inl hx)
    · exact absurd hx (Option.not_mem_none x)
  · unfold Daemon.judge
    dsimp only at hg ⊢
    split
    case isTrue hadmits =>
      rw [hg]
      refine List.forall_mem_append.mpr ⟨h.admitted, List.forall_mem_singleton.mpr ?_⟩
      intro hvalid hstamp
      unfold admits at hadmits
      simp only [Bool.or_eq_true, decide_eq_true_eq, Bool.and_eq_true] at hadmits
      obtain ⟨hgen, -⟩ := hadmits.resolve_left hstamp
      exact ⟨hparity, hfresh.supports hvalid hstamp hgen⟩
    case isFalse => exact h.admitted

/-- One step of the daemon keeps the invariant. -/
theorem Daemon.Inv.step (h : d.Inv) {l : DaemonLabel K} {d' : Daemon K} (hs : d.step l = some d')
    (hswap : d.SwapOk l) : d'.Inv := by
  have hparity := h.parity
  cases l with
  | source i l => exact h.stepSource hs hswap
  | beginLeap =>
    unfold Daemon.step at hs
    dsimp only at hs
    split at hs
    case h_1 hpc =>
      cases hs
      rw [hpc] at hparity
      refine h.advance (by simp [ChangePc.odd] at hparity ⊢; omega) fun i g hg => ?_
      rw [show (ChangePc.leaping (List.range d.sources.length)).owes i = true from
        mem_range_of_getElem? hg]
      exact (h.sources i g hg).begin_
    case h_2 => cases hs
  | finishLeap =>
    unfold Daemon.step at hs
    dsimp only at hs
    split at hs
    case h_1 hpc =>
      cases hs
      rw [hpc] at hparity
      refine h.advance (by simp [ChangePc.odd] at hparity ⊢; omega) fun i g hg => ?_
      have hinv := h.sources i g hg
      rw [hpc] at hinv
      exact hinv.finish hparity
    case h_2 => cases hs
  | beginStep =>
    unfold Daemon.step at hs
    dsimp only at hs
    split at hs
    case h_1 hpc _ =>
      cases hs
      rw [hpc] at hparity
      exact h.advance (by simp [ChangePc.odd] at hparity ⊢; omega)
        fun i g hg => (h.sources i g hg).begin_
    case h_2 => cases hs
  | stepClock =>
    unfold Daemon.step at hs
    dsimp only at hs
    split at hs
    case h_1 hpc =>
      cases hs
      exact h.relocate (by rw [hpc]; rfl) fun i => by rw [hpc]; rfl
    case h_2 => cases hs
  | finishStep =>
    unfold Daemon.step at hs
    dsimp only at hs
    split at hs
    case h_1 hpc =>
      cases hs
      rw [hpc] at hparity
      refine h.advance (by simp [ChangePc.odd] at hparity ⊢; omega) fun i g hg => ?_
      have hinv := h.sources i g hg
      rw [hpc] at hinv
      rw [show (ChangePc.resetting (List.range d.sources.length)).owes i = true from
        mem_range_of_getElem? hg]
      exact hinv.finish hparity
    case h_2 => cases hs
  | resetSource i =>
    unfold Daemon.step at hs
    dsimp only at hs
    split at hs
    case h_1 owed hpc =>
      split at hs
      case isTrue hi =>
        cases hs
        exact h.pay hpc hi (fun _ => rfl) fun _ _ => rfl
      case isFalse => cases hs
    case h_2 owed hpc =>
      split at hs
      case isTrue hi =>
        cases hs
        exact h.pay hpc hi (fun _ => rfl) fun _ _ => rfl
      case isFalse => cases hs
    case h_3 => cases hs
  | resetDone =>
    unfold Daemon.step at hs
    dsimp only at hs
    split at hs
    case h_1 hpc =>
      cases hs
      exact h.relocate (by rw [hpc]; rfl) fun i => by rw [hpc]; rfl
    case h_2 => cases hs
  | dequeue =>
    unfold Daemon.step at hs
    dsimp only at hs
    split at hs
    case h_1 x queue hpc hheld hqueue =>
      cases hs
      refine h.pass fun y hy => ?_
      rw [hqueue]
      rcases hy with hy | hy
      · exact .inl (List.mem_cons_of_mem x hy)
      · exact .inl (Option.some.inj hy ▸ List.mem_cons_self)
    case h_2 => cases hs
  | judge =>
    unfold Daemon.step at hs
    dsimp only at hs
    split at hs
    case h_1 i m hpc hheld =>
      cases hs
      exact h.judge hheld hpc
    case h_2 => cases hs

/-- **The epoch protocol under safe swaps.**  In a run whose swaps of the reset flags come
in a safe order, every stamped estimate that the engine admits has its offset and jitter
from observations taken wholly inside the settled epoch it is admitted in. -/
theorem admitted_within_epoch (sources : List (SourceConfig K)) (labels : List (DaemonLabel K))
    (d : Daemon K) (hrun : Runs.run Daemon.step (Daemon.new sources) labels = some d)
    (hswaps : Runs.Along Daemon.step Daemon.SwapOk (Daemon.new sources) labels) :
    ∀ a ∈ d.admitted, a.measurement.valid = true → a.measurement.generation ≠ 0 →
      a.gen % 2 = 0 ∧ a.source.Supports a.gen a.measurement :=
  (Runs.run_invariant (I := Daemon.Inv) (fun _ _ _ h hswap hs => h.step hs hswap)
    (daemonInv_new sources) hswaps hrun).admitted

/-! ## Runs around a clock step -/

section Samples

/-- A server and a pulse. -/
def serverConfig : NtpConfig := ⟨.server, 6, 10, true, -20⟩
@[inherit_doc serverConfig]
def pulseConfig : PpsConfig ℚ := ⟨.pps, 0, 1 / 5000, 2, 7, 500, true, -20⟩

/-- A reply with an offset and a delay. -/
def serverReply (offset delay at_ : ℚ) : Exchange ℚ where
  offset := offset
  delay := delay
  t1 := 0
  t4 := 0
  stratum := 1
  refID := default
  rootDelay := 0
  rootDisp := 0
  precision := -20
  leap := .none
  refTime := 0
  at_ := at_
  now := at_

/-- A poll of the server, step by step. -/
def serverPoll (x : Exchange ℚ) : List (DaemonLabel ℚ) :=
  [Epoch.Label.read, .start, .finish x, .reread, .swap, .add, .send].map fun l => .source 0 (.ntp l)

/-- An edge of the pulse, on the second; the last steps depend on what it makes of the
window. -/
def pulseEdge (n : ℕ) (last : List (Epoch.Label (Pulse ℚ) (PpsEvent ℚ))) : List (DaemonLabel ℚ) :=
  let edge : Pulse ℚ := ⟨UInt32.ofNat n, n * second, n, n⟩
  ([Epoch.Label.sweep, .read, .start, .finish edge, .reread, .swap, .add] ++ last).map
    fun l => .source 1 (.pps l)

/-- Both sources report, the clock is stepped by ten seconds, the flags are raised, and
both report again. -/
def settledRun : List (DaemonLabel ℚ) :=
  serverPoll (serverReply 10 (1 / 10) 100) ++ pulseEdge 1 [.stamp, .send] ++
  ([.dequeue, .judge, .dequeue, .judge, .beginStep, .stepClock, .finishStep, .resetSource 1,
    .resetSource 0, .resetDone] : List (DaemonLabel ℚ)) ++
  serverPoll (serverReply 0 (1 / 100) 164) ++ pulseEdge 2 [.stamp, .send] ++
  pulseEdge 3 [.stamp, .send] ++ pulseEdge 4 [.stamp, .send] ++ pulseEdge 5 [.send] ++
  (List.replicate 5 ([.dequeue, .judge] : List (DaemonLabel ℚ))).flatten

/-- The estimates of both sources are admitted before and after the step. -/
theorem admitted_within_epoch_settled :
    ∃ d, Runs.run Daemon.step (Daemon.new [.ntp serverConfig default, .pps pulseConfig]) settledRun
        = some d ∧
      (d.admitted.filter (·.measurement.valid)).map
        (fun a => (a.measurement.source.val, a.gen, a.measurement.generation))
        = [("server", 2, 2), ("server", 4, 4), ("pps", 4, 4)] ∧
      ∀ a ∈ d.admitted, a.measurement.valid = true → a.measurement.generation ≠ 0 →
        a.gen % 2 = 0 ∧ a.source.Supports a.gen a.measurement := by
  have h : (Runs.run Daemon.step (Daemon.new [.ntp serverConfig default, .pps pulseConfig])
      settledRun).map (fun d => (d.admitted.filter (·.measurement.valid)).map
        fun a => (a.measurement.source.val, a.gen, a.measurement.generation))
      = some [("server", 2, 2), ("server", 4, 4), ("pps", 4, 4)] := by decide +kernel
  obtain ⟨d, hd, hadmitted⟩ := Option.map_eq_some_iff.mp h
  exact ⟨d, hd, hadmitted, admitted_within_epoch _ settledRun d hd (by decide +kernel)⟩

/-- The server is polled after the counter has settled and before its flag is raised. -/
def earlySwapRun : List (DaemonLabel ℚ) :=
  serverPoll (serverReply 10 (1 / 10) 100) ++
  ([.dequeue, .judge, .beginStep, .stepClock, .finishStep] : List (DaemonLabel ℚ)) ++
  serverPoll (serverReply 0 (1 / 100) 164) ++
  ([.resetSource 0, .resetDone, .dequeue, .judge] : List (DaemonLabel ℚ))

/-- The filter then still holds the reply from before the step, and the engine admits
its ten seconds as jitter. -/
theorem early_swap_mixes_epochs :
    ∃ d, Runs.run Daemon.step (Daemon.new [.ntp serverConfig default]) earlySwapRun = some d ∧
      ∃ a ∈ d.admitted, a.measurement.valid = true ∧ a.measurement.generation = 4 ∧ a.gen = 4 ∧
        a.measurement.offset = 0 ∧ a.measurement.jitter = 10 ∧
        ¬ a.source.Supports a.gen a.measurement := by
  have h : (Runs.run Daemon.step (Daemon.new [.ntp serverConfig default]) earlySwapRun).map
      (fun d => d.admitted.any fun a => decide (a.measurement.valid = true ∧
        a.measurement.generation = 4 ∧ a.gen = 4 ∧ a.measurement.offset = 0 ∧
        a.measurement.jitter = 10 ∧ ¬ a.source.Supports a.gen a.measurement))
      = some true := by decide +kernel
  obtain ⟨d, hd, hany⟩ := Option.map_eq_some_iff.mp h
  obtain ⟨a, ha, hgood⟩ := List.any_eq_true.mp hany
  exact ⟨d, hd, a, ha, of_decide_eq_true hgood⟩

/-- The server's reply is checked before the step, and its flag is looked at after it was
raised. -/
def lateSwapRun : List (DaemonLabel ℚ) :=
  serverPoll (serverReply 10 (1 / 10) 100) ++ ([.dequeue, .judge] : List (DaemonLabel ℚ)) ++
  (serverPoll (serverReply 10 (1 / 10) 101)).take 4 ++
  ([.beginStep, .stepClock, .finishStep, .resetSource 0, .resetDone] : List (DaemonLabel ℚ)) ++
  (serverPoll (serverReply 10 (1 / 10) 101)).drop 4 ++
    ([.dequeue, .judge] : List (DaemonLabel ℚ)) ++
  serverPoll (serverReply 0 (1 / 100) 164) ++ ([.dequeue, .judge] : List (DaemonLabel ℚ))

/-- That reply is dropped as stale, but it has entered the filter the flag had emptied,
and the next one is admitted with it. -/
theorem late_swap_mixes_epochs :
    ∃ d, Runs.run Daemon.step (Daemon.new [.ntp serverConfig default]) lateSwapRun = some d ∧
      ∃ a ∈ d.admitted, a.measurement.valid = true ∧ a.measurement.generation = 4 ∧ a.gen = 4 ∧
        a.measurement.jitter = 10 ∧ ¬ a.source.Supports a.gen a.measurement := by
  have h : (Runs.run Daemon.step (Daemon.new [.ntp serverConfig default]) lateSwapRun).map
      (fun d => d.admitted.any fun a => decide (a.measurement.valid = true ∧
        a.measurement.generation = 4 ∧ a.gen = 4 ∧ a.measurement.jitter = 10 ∧
        ¬ a.source.Supports a.gen a.measurement)) = some true := by decide +kernel
  obtain ⟨d, hd, hany⟩ := Option.map_eq_some_iff.mp h
  obtain ⟨a, ha, hgood⟩ := List.any_eq_true.mp hany
  exact ⟨d, hd, a, ha, of_decide_eq_true hgood⟩

end Samples

end Carillon
