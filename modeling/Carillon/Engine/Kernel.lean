/-
# The engine and the kernel

The engine steers a kernel clock that outlives it.  It remembers what it last wrote: the
frequency word, so that it can put the base frequency back on exit, and the status, so that it
writes only changes.  `Driven` is the engine together with the kernel's words; the outcome of
every write is the kernel's.

* The kernel's words are those of the engine's memory, whatever was refused (`Mirrors`).
* After every call that returns, the kernel's flags and error bound are those of the status that
  the call has published.
* However a run ends, the kernel is left at the base frequency, unless it refused a frequency.
-/
import Mathlib.Tactic
import Carillon.Lib.Runs
import Carillon.Clock.Words
import Carillon.Engine.Once

namespace Carillon

open Discipline (HasSqrt Action)
open Leap (Digest)
open Clock (Timex)

variable {K : Type} [Field K] [LinearOrder K]

/-! ## Conversions -/

section

variable [FloorRing K]

/-- `clock.Seconds`, on numbers. -/
def seconds (v : K) : Option ℤ :=
  if maxDurationSeconds < v ∨ v < -maxDurationSeconds then none
  else some (Clock.truncate (v * 1000000000))

/-- `clock.BoundSeconds`, on numbers. -/
def boundSeconds (v : K) (limit : ℤ) : ℤ :=
  if v ≤ 0 then 0
  else match seconds v with
    | some d => if d < limit then d else limit
    | none => limit

/-- `maxKernelError`. -/
def maxKernelError : ℤ := 16 * second

/-- The status as the backends take it. -/
def KernelStatus.status (ks : KernelStatus K) : Clock.Status :=
  ⟨ks.synced, ks.leap, boundSeconds ks.maxError maxKernelError,
    boundSeconds ks.estError maxKernelError⟩

end

/-! ## The driven engine -/

/-- The engine with the kernel that it steers; `applied` is `appliedFreq`, and `refused` says that
the error that ended the run is `errFrequencyRefused`. -/
structure Driven (K : Type) where
  engine : Engine K
  timex : Timex
  applied : Option K
  refused : Bool

section

variable [FloorRing K]

/-- `setFrequency`, for a kernel that takes the word. -/
def Driven.setFrequency (d : Driven K) (ppm : K) : Driven K :=
  { d with timex := d.timex.setFrequency ppm, applied := some ppm }

/-- One action of a result; `ok` is what the kernel answers to it. -/
def Driven.act (r : Readings) (ok : Action K → Bool) (d : Driven K) (a : Action K) : Driven K :=
  let next := { d with engine := d.engine.act { r with actuates := ok a } a }
  if d.engine.alive then
    match a with
    | .setFrequency ppm => if ok a then next.setFrequency ppm else { next with refused := true }
    | _ => next
  else d

variable [HasSqrt K] (sha256 : Bytes → Digest)

/-- `handle`, after the actions.  The kernel is written only when the status is not the last one. -/
def Driven.report (d : Driven K) (res : Discipline.Result K) (now : K) (r : Readings) : Driven K :=
  let (e, st) := d.engine.applyLeap sha256 (d.engine.sys.status now) r.apply
  let ks := e.kernelStatus st r.kernel
  { d with
    engine := d.engine.report sha256 res now r
    timex := if e.lastKernel = some ks then d.timex
      else if r.accepts then d.timex.setStatus ks.status else d.timex }

/-- `handle`. -/
def Driven.handle (d : Driven K) (res : Discipline.Result K) (now : K) (r : Readings)
    (ok : Action K → Bool) : Driven K :=
  let (e, now) := d.engine.processing now
  let d := res.actions.foldl (Driven.act r ok) { d with engine := e.crossLeap now r.cross }
  if d.engine.alive then d.report sha256 res now r else d

/-- One call of a live engine. -/
def Driven.call (d : Driven K) (c : Call K × (Action K → Bool)) : Option (Driven K) :=
  if d.engine.alive then
    match d.engine.submit sha256 c.1 with
    | (e, none) => some { d with engine := e }
    | (e, some h) => some ({ d with engine := e }.handle sha256 h.result h.now h.readings c.2)
  else none

/-- The status that `Run` begins with. -/
def unsyncStatus : KernelStatus K := ⟨false, .unsync, 16, 16⟩

/-- The beginning of `Run`, once the kernel has taken the base frequency and the status. -/
def Driven.start (e : Engine K) (t : Timex) : Driven K where
  engine := { e with lastKernel := some unsyncStatus }
  timex := (t.setFrequency e.sys.loop.freq).setStatus (unsyncStatus : KernelStatus K).status
  applied := some e.sys.loop.freq
  refused := false

/-- `restoreBaseFrequency`. -/
def Driven.restoreBaseFrequency (d : Driven K) (ok : Bool) : Driven K :=
  let base := d.engine.sys.loop.freq
  if d.applied = none ∨ d.applied = some base then d
  else if d.refused then d
  else if ok then d.setFrequency base
  else d

end

/-! ## The engine of a driven engine -/

section

variable [FloorRing K]

theorem act_engine {r : Readings} {ok : Action K → Bool} {a : Action K} (h : r.actuates = ok a)
    (d : Driven K) : (d.act r ok a).engine = d.engine.act r a := by
  have hr : { r with actuates := ok a } = r := by rw [← h]
  unfold Driven.act
  by_cases halive : d.engine.alive = true
  · rw [if_pos halive, hr]
    cases a with
    | setFrequency ppm =>
      dsimp only
      split_ifs <;> rfl
    | step v => rfl
    | resetFilters => rfl
  · rw [if_neg halive]
    unfold Engine.act
    rw [if_neg halive]

/-- The driven engine is the engine, action by action. -/
theorem acts_engine {r : Readings} {ok : Action K → Bool} (h : ∀ a, r.actuates = ok a)
    (actions : List (Action K)) (d : Driven K) :
    (actions.foldl (Driven.act r ok) d).engine = actions.foldl (Engine.act r) d.engine := by
  induction actions generalizing d with
  | nil => rfl
  | cons a actions ih => rw [List.foldl_cons, List.foldl_cons, ih, act_engine (h a)]

/-- The driven engine handles a result as the engine does. -/
theorem handle_engine [HasSqrt K] (sha256 : Bytes → Digest) {r : Readings} {ok : Action K → Bool}
    (h : ∀ a, r.actuates = ok a) (d : Driven K) (res : Discipline.Result K) (now : K) :
    (d.handle sha256 res now r ok).engine = d.engine.handle sha256 res now r := by
  unfold Driven.handle Engine.handle Engine.perform
  dsimp only
  have hacts := acts_engine h res.actions
    { d with engine := (d.engine.processing now).1.crossLeap (d.engine.processing now).2 r.cross }
  simp only [← hacts]
  split_ifs <;> rfl

/-- Where the kernel answers every write of a call alike, the engine does what it does without
the kernel in sight. -/
theorem call_engine [HasSqrt K] (sha256 : Bytes → Digest) (d : Driven K) (c : Call K)
    (ok : Action K → Bool)
    (h : ∀ x ∈ (d.engine.submit sha256 c).2, ∀ a, x.readings.actuates = ok a) :
    (d.call sha256 (c, ok)).map (·.engine) = d.engine.call sha256 c := by
  unfold Driven.call Engine.call
  split_ifs
  · cases hsubmit : d.engine.submit sha256 c with
    | mk e handling =>
      cases handling with
      | none => rfl
      | some x =>
        exact congrArg some (handle_engine sha256 (h x (by rw [hsubmit]; rfl)) _ _ _)
  · rfl

end

/-! ## What leaves the engine's memory of the kernel alone -/

/-- The engine's memory of the kernel stays, and a leap that is armed is an insertion or a
deletion, or was armed before. -/
structure Engine.Carries {K : Type} (e e' : Engine K) : Prop where
  lastKernel : e'.lastKernel = e.lastKernel
  armed : ∀ a, e'.pendingLeap = some a → e.pendingLeap = some a ∨ a.kind = .insert ∨
    a.kind = .delete

namespace Engine.Carries

variable {K : Type} {e e' e'' : Engine K}

theorem of_eq (hk : e'.lastKernel = e.lastKernel) (hp : e'.pendingLeap = e.pendingLeap) :
    e.Carries e' := ⟨hk, fun _ ha => .inl (hp ▸ ha)⟩

theorem trans (h : e.Carries e') (h' : e'.Carries e'') : e.Carries e'' :=
  ⟨h'.lastKernel.trans h.lastKernel, fun a ha => (h'.armed a ha).elim (h.armed a) .inr⟩

end Engine.Carries

section

variable {K : Type} {sha256 : Bytes → Digest}

theorem carries_notePendingLeap (e : Engine K) (warning : Ntp.Leap) (wall : ℤ) :
    e.Carries (e.notePendingLeap warning wall) := by
  unfold Engine.notePendingLeap
  dsimp only
  split_ifs with h
  · refine ⟨rfl, fun a ha => .inr ?_⟩
    cases ha
    exact h.1
  · exact .of_eq rfl rfl

theorem carries_judge (e : Engine K) (st : Discipline.Status K) (wall : ℤ) :
    e.Carries (e.judge sha256 st wall).1 := by
  unfold Engine.judge
  dsimp only
  split <;> split_ifs <;> exact .of_eq rfl rfl

theorem carries_announce (e : Engine K) (st : Discipline.Status K) (wall : ℤ) :
    e.Carries (e.announce st wall).1 := by
  unfold Engine.announce
  split_ifs
  · exact carries_notePendingLeap e _ wall
  all_goals exact .of_eq rfl rfl

theorem carries_stepped (e : Engine K) (after : ℤ) : e.Carries (e.stepped after) := by
  unfold Engine.stepped Engine.see
  dsimp only
  split
  · split_ifs
    · exact ⟨rfl, fun _ ha => by cases ha⟩
    · exact .of_eq rfl rfl
  · exact .of_eq rfl rfl

theorem carries_noteSourceAlive (e : Engine K) (name : Discipline.Name) :
    e.Carries (e.noteSourceAlive name) := by
  unfold Engine.noteSourceAlive
  split_ifs <;> exact .of_eq rfl rfl

end

section

variable {sha256 : Bytes → Digest}

theorem carries_applyLeap (sha256 : Bytes → Digest) (e : Engine K) (st : Discipline.Status K)
    (wall : ℤ) : e.Carries (e.applyLeap sha256 st wall).1 :=
  have hestablish : e.Carries (e.establish st wall) := .of_eq rfl rfl
  (hestablish.trans (carries_judge _ st wall)).trans (carries_announce _ _ wall)

/-- An action leaves the memory alone. -/
theorem carries_act (r : Readings) (e : Engine K) (a : Action K) : e.Carries (e.act r a) := by
  unfold Engine.act
  by_cases halive : e.alive = true
  · rw [if_pos halive]
    cases a with
    | setFrequency ppm => exact .of_eq rfl rfl
    | step v =>
      dsimp only
      split_ifs
      · exact .of_eq rfl rfl
      · have hnext : e.Carries { e with gen := e.gen + 2, alive := r.actuates } := .of_eq rfl rfl
        exact hnext.trans (carries_stepped _ _)
      · exact .of_eq rfl rfl
    | resetFilters => exact .of_eq rfl rfl
  · rw [if_neg halive]
    exact .of_eq rfl rfl

omit [Field K] in
theorem carries_processing (e : Engine K) (mono : K) : e.Carries (e.processing mono).1 :=
  .of_eq rfl rfl

theorem carries_publish (sha256 : Bytes → Digest) (e : Engine K) (mono : K) (wall snapshot : ℤ) :
    e.Carries (e.publish sha256 mono wall snapshot) := by
  have happly := (carries_processing e mono).trans (carries_applyLeap sha256 _
    ((e.processing mono).1.sys.status (e.processing mono).2) wall)
  exact happly.trans (.of_eq rfl rfl)

variable [HasSqrt K]

theorem carries_crossLeap (e : Engine K) (now : K) (wall : ℤ) :
    e.Carries (e.crossLeap now wall) := by
  unfold Engine.crossLeap Engine.see
  dsimp only
  split
  · split_ifs
    · exact ⟨rfl, fun _ ha => by cases ha⟩
    · exact .of_eq rfl rfl
  · exact .of_eq rfl rfl

/-- The processing clock and the crossing check, with which every call begins. -/
theorem carries_enter (e : Engine K) (mono : K) (wall : ℤ) :
    e.Carries ((e.processing mono).1.crossLeap (e.processing mono).2 wall) :=
  (carries_processing e mono).trans (carries_crossLeap _ _ _)

/-- So does a request of the updater. -/
theorem carries_leapRequest (e : Engine K) (record : Leap.Record) (activate : Bool) (mono : K)
    (cross check : ℤ) (mono' mono'' : K) (r : Readings) :
    e.Carries (e.leapRequest sha256 record activate mono cross check mono' mono'' r).1 := by
  have hcheck : e.Carries (((e.processing mono).1.crossLeap (e.processing mono).2 cross).checkLeap
      sha256 record check mono').1 := by
    refine (carries_enter e mono cross).trans ?_
    unfold Engine.checkLeap
    dsimp only
    exact (carries_processing _ mono').trans (carries_applyLeap sha256 _ _ _)
  unfold Engine.leapRequest
  dsimp only
  split
  · exact hcheck
  · split_ifs
    · exact hcheck.trans (.of_eq rfl rfl)
    · exact hcheck
    · exact hcheck.trans (.of_eq rfl rfl)

/-- A call leaves the memory alone up to its `handle`. -/
theorem carries_submit (e : Engine K) (c : Call K) : e.Carries (e.submit sha256 c).1 := by
  cases c with
  | tick mono cross r => exact (carries_enter e mono cross).trans (.of_eq rfl rfl)
  | measurement m mono cross mono' r =>
    simp only [Engine.submit]
    split_ifs
    · exact carries_enter e mono cross
    · have hagain := (carries_enter e mono cross).trans (carries_processing _ mono')
      exact (hagain.trans (carries_noteSourceAlive _ m.source)).trans (.of_eq rfl rfl)
  | sourceStopped name poll mono r =>
    simp only [Engine.submit]
    split_ifs <;> exact .of_eq rfl rfl
  | sourceRestarting name mono wall snapshot =>
    have hnoted : e.Carries { e with restarting := name :: e.restarting } := .of_eq rfl rfl
    exact hnoted.trans (carries_publish sha256 _ mono wall snapshot)
  | leapRequest record activate mono cross check mono' mono'' r =>
    exact carries_leapRequest e record activate mono cross check mono' mono'' r

end

/-! ## The kernel holds what the engine remembers -/

/-- The last status written is what counts. -/
theorem Clock.statusWord_statusWord (current : BitVec 32) (s s' : Clock.Status) :
    Clock.statusWord (Clock.statusWord current s) s' = Clock.statusWord current s' := by
  rw [Clock.statusWord_eq _ s', Clock.statusWord_and_not, ← Clock.statusWord_eq]

variable {e : Engine K}

section

variable [FloorRing K] {t : Timex} {d d' : Driven K}

/-- The kernel's words are those that the engine remembers to have written; the bits that are not
the daemon's are those of the kernel `t` before the run. -/
structure Driven.Mirrors (t : Timex) (d : Driven K) : Prop where
  freq : ∃ f, d.applied = some f ∧ d.timex.freq = Clock.freqWord f
  status : ∃ ks, d.engine.lastKernel = some ks ∧
    d.timex.status = Clock.statusWord t.status ks.status ∧
    d.timex.maxerror = Clock.errorMicros ks.status.maxError ∧
    d.timex.esterror = Clock.errorMicros ks.status.estError
  armed : ∀ a, d.engine.pendingLeap = some a → a.kind = .insert ∨ a.kind = .delete

/-- What the engine does without writing keeps that. -/
theorem Driven.Mirrors.engine (h : d.Mirrors t) (he : d.engine.Carries e) :
    Driven.Mirrors t { d with engine := e } :=
  ⟨h.freq, he.lastKernel ▸ h.status, fun a ha => (he.armed a ha).elim (h.armed a) id⟩

/-- One action keeps the mirror. -/
theorem mirrors_act (h : d.Mirrors t) (r : Readings) (ok : Action K → Bool) (a : Action K) :
    (d.act r ok a).Mirrors t := by
  have hnext := h.engine (carries_act { r with actuates := ok a } d.engine a)
  unfold Driven.act
  by_cases halive : d.engine.alive = true
  · rw [if_pos halive]
    cases a with
    | setFrequency ppm =>
      dsimp only
      split_ifs
      · exact ⟨⟨ppm, rfl, rfl⟩, hnext.status, hnext.armed⟩
      · exact ⟨hnext.freq, hnext.status, hnext.armed⟩
    | step v => exact hnext
    | resetFilters => exact hnext
  · rw [if_neg halive]
    exact h

theorem mirrors_acts (h : d.Mirrors t) (r : Readings) (ok : Action K → Bool)
    (actions : List (Action K)) : (actions.foldl (Driven.act r ok) d).Mirrors t := by
  induction actions generalizing d with
  | nil => exact h
  | cons a actions ih => exact ih (mirrors_act h r ok a)

variable {sha256 : Bytes → Digest}

/-- A report keeps the mirror. -/
theorem mirrors_report (h : d.Mirrors t) (res : Discipline.Result K) (now : K) (r : Readings) :
    (d.report sha256 res now r).Mirrors t := by
  unfold Driven.report Engine.report
  generalize hA : d.engine.applyLeap sha256 (d.engine.sys.status now) r.apply = A
  have hA' : d.engine.Carries A.1 := hA ▸ carries_applyLeap sha256 _ _ _
  have hengine := h.engine hA'
  dsimp only
  have hpublish : ∀ (e : Engine K) (T : Timex),
      Driven.Mirrors t { d with engine := e, timex := T } → Driven.Mirrors t { d with
        engine := if e.alive then
          { e.publishStatus A.2 now r.publish with alive := !panics res } else e
        timex := T } := by
    intro e T h
    split_ifs
    · exact ⟨h.freq, h.status, h.armed⟩
    · exact h
  apply hpublish
  unfold Engine.syncKernel
  split_ifs with hsame hacc
  · exact hengine
  · obtain ⟨ks, -, hs, -⟩ := h.status
    refine ⟨h.freq, ⟨_, rfl, ?_, rfl, rfl⟩, hengine.armed⟩
    change Clock.statusWord d.timex.status _ = _
    rw [hs, Clock.statusWord_statusWord]
  · exact ⟨h.freq, hengine.status, hengine.armed⟩

variable [HasSqrt K]

theorem mirrors_handle (h : d.Mirrors t) (res : Discipline.Result K) (now : K) (r : Readings)
    (ok : Action K → Bool) : (d.handle sha256 res now r ok).Mirrors t := by
  unfold Driven.handle
  dsimp only
  have hcross := h.engine (carries_enter d.engine now r.cross)
  have hacts := mirrors_acts hcross r ok res.actions
  split_ifs
  · exact mirrors_report hacts res _ r
  · exact hacts

/-- Every call keeps the mirror. -/
theorem mirrors_call (h : d.Mirrors t) {c : Call K × (Action K → Bool)}
    (hc : d.call sha256 c = some d') : d'.Mirrors t := by
  unfold Driven.call at hc
  split_ifs at hc
  have hsubmit := h.engine (e := (d.engine.submit sha256 c.1).1) (carries_submit d.engine c.1)
  split at hc
  · rename_i e he
    cases hc
    rw [he] at hsubmit
    exact hsubmit
  · rename_i e hd he
    cases hc
    rw [he] at hsubmit
    exact mirrors_handle hsubmit _ _ _ _

/-- Every run of an engine that has armed nothing yet, as `New` builds it. -/
theorem mirrors_run {cs : List (Call K × (Action K → Bool))} (he : e.pendingLeap = none)
    (hrun : Runs.run (Driven.call sha256) (Driven.start e t) cs = some d) : d.Mirrors t := by
  have hstart : (Driven.start e t).Mirrors t :=
    ⟨⟨_, rfl, rfl⟩, ⟨_, rfl, rfl, rfl, rfl⟩, fun a ha => by cases he.symm.trans ha⟩
  exact Runs.run_invariant (C := fun _ _ => True) (fun _ _ _ h _ hc => mirrors_call h hc) hstart
    (Runs.along_of_forall (fun _ _ => trivial) _ _) hrun

end

/-! ## Exit -/

/-- **The base frequency on exit.**  Whatever calls a run has made and however it has ended, if no
frequency was refused and the kernel takes the last word, it is left at the word of the base
frequency: within half a unit of it, if it is in the kernel's range. -/
theorem exit_restores_base [FloorRing K] [IsStrictOrderedRing K] [HasSqrt K]
    (sha256 : Bytes → Digest) (e : Engine K) (t : Timex) (cs : List (Call K × (Action K → Bool)))
    (d : Driven K) (he : e.pendingLeap = none)
    (hrun : Runs.run (Driven.call sha256) (Driven.start e t) cs = some d)
    (hrefused : d.refused = false) :
    (d.restoreBaseFrequency true).timex.freq = Clock.freqWord d.engine.sys.loop.freq ∧
      |Clock.freqPPM (d.restoreBaseFrequency true).timex.freq -
        Clock.clampFrequency d.engine.sys.loop.freq| ≤ 1 / (2 * Clock.freqScale) ∧
      (d.restoreBaseFrequency true).timex.status = d.timex.status := by
  obtain ⟨f, hf, hword⟩ := (mirrors_run he hrun).freq
  have hfreq : (d.restoreBaseFrequency true).timex.freq =
      Clock.freqWord d.engine.sys.loop.freq := by
    unfold Driven.restoreBaseFrequency
    dsimp only
    by_cases h : d.applied = none ∨ d.applied = some d.engine.sys.loop.freq
    · rw [if_pos h]
      rcases h with h | h
      · cases hf.symm.trans h
      · cases hf.symm.trans h
        exact hword
    · rw [if_neg h, hrefused, if_neg Bool.false_ne_true, if_pos rfl]
      rfl
  refine ⟨hfreq, ?_, ?_⟩
  · rw [hfreq]
    exact Clock.freqPPM_freqWord _
  · unfold Driven.restoreBaseFrequency
    dsimp only
    split_ifs <;> rfl

section Samples

open Leap (firstBytes)
open Discipline (report)

/-- A report of an offset, taken off the queue at a wall time. -/
def offsetAt (t offset : ℚ) (wall : ℤ) : Call ℚ :=
  .measurement { report t .none with offset := offset } t wall t (steady wall)

/-- A daemon synchronises at an offset of one millisecond. -/
def acquiringCalls : List (Call ℚ × (Action ℚ → Bool)) :=
  let start := july1972 - 1000 * second
  [offsetAt 1 (1 / 1000) (start + second), offsetAt 65 (1 / 1000) (start + 65 * second)].map
    fun c => (c, fun _ => true)

/-- The tick after that, which slews. -/
def slewingTick : Call ℚ × (Action ℚ → Bool) :=
  let wall := july1972 - 934 * second
  (.tick 66 wall (steady wall), fun _ => true)

/-- A kernel that disciplines its clock itself and counts nanoseconds. -/
def bootKernel : Timex := ⟨0, 0x2041, 0, 0⟩

/-- The daemon on that kernel. -/
def booted : Driven ℚ := .start (daemon .empty (july1972 - 1000 * second)) bootKernel

/-- On exit, the slew of 4 ppm is taken back to the base of 125/512 ppm. -/
theorem exit_restores_base_slewing :
    ∃ d, Runs.run (Driven.call firstBytes) booted (acquiringCalls ++ [slewingTick]) = some d ∧
      d.timex.freq = 272000 ∧ (d.restoreBaseFrequency true).timex.freq = 16000 := by
  have h : (Runs.run (Driven.call firstBytes) booted (acquiringCalls ++ [slewingTick])).map
      (fun d => (d.timex.freq, d.refused, Clock.freqWord d.engine.sys.loop.freq)) =
      some (272000, false, 16000) := by decide +kernel
  obtain ⟨d, hd, hwords⟩ := Option.map_eq_some_iff.mp h
  simp only [Prod.mk.injEq] at hwords
  obtain ⟨hfreq, hrefused, hbase⟩ := hwords
  exact ⟨d, hd, hfreq, ((exit_restores_base firstBytes _ bootKernel _ d (by decide +kernel)
    hd hrefused).1).trans hbase⟩

end Samples

/-! ## The kernel and the snapshot -/

section

variable [FloorRing K] [IsStrictOrderedRing K]

/-- From the ceiling on, the bound is the ceiling. -/
theorem boundSeconds_limit {v : K} (h : 16 ≤ v) :
    boundSeconds v maxKernelError = maxKernelError := by
  have hpos : ¬ v ≤ 0 := by linarith
  rw [boundSeconds, if_neg hpos]
  cases hs : seconds v with
  | none => rfl
  | some d =>
    unfold seconds at hs
    split_ifs at hs
    cases hs
    refine if_neg (not_lt.mpr ?_)
    have hscaled : ((maxKernelError : ℤ) : K) ≤ v * 1000000000 := by
      have : ((maxKernelError : ℤ) : K) = 16 * 1000000000 := by norm_num [maxKernelError, second]
      linarith
    rw [Clock.truncate, if_neg (by linarith)]
    exact Int.le_floor.mpr hscaled

/-- The bound that the engine has clamped already is converted like the one it was clamped from. -/
theorem boundSeconds_clamp (v : K) :
    boundSeconds (max 0 (min 16 v)) maxKernelError = boundSeconds v maxKernelError := by
  rcases le_or_gt v 0 with h | h
  · rw [max_eq_left (min_le_of_right_le h), boundSeconds, boundSeconds, if_pos le_rfl, if_pos h]
  · rcases le_or_gt v 16 with h' | h'
    · rw [min_eq_right h', max_eq_right h.le]
    · rw [min_eq_left h'.le, max_eq_right (by norm_num), boundSeconds_limit le_rfl,
        boundSeconds_limit h'.le]

/-- What the words of a kernel tell about a snapshot, with the leap that the engine has armed: it
is synchronised exactly when the snapshot says so; the leap bits are those of the snapshot's leap,
and of an unknown one those of the armed leap or none; the kernel does not discipline the clock
itself; its other bits are those of `before`; and the error bound is that of the snapshot. -/
structure Shows (before t : Timex) (pending : Option Armed) (st : Discipline.Status K) : Prop where
  unsync : t.status &&& Clock.staUNSYNC = 0 ↔ st.synced = true
  leap : st.synced = true → st.leap ≠ .unsync →
    t.status &&& (Clock.staINS ||| Clock.staDEL) = Clock.leapBits st.leap
  unknown : st.synced = true → st.leap = .unsync →
    t.status &&& (Clock.staINS ||| Clock.staDEL) = 0 ∨
      ∃ a ∈ pending, t.status &&& (Clock.staINS ||| Clock.staDEL) = Clock.leapBits a.kind
  silent : st.synced = false → t.status &&& (Clock.staINS ||| Clock.staDEL) = 0
  quiet : t.status &&&
    (Clock.staPLL ||| Clock.staPPSFREQ ||| Clock.staPPSTIME ||| Clock.staFLL) = 0
  others : t.status &&& ~~~Clock.disciplineBits = before.status &&& ~~~Clock.disciplineBits
  maxerror : t.maxerror = if st.synced
    then Clock.errorMicros (boundSeconds (st.rootDisp + st.rootDelay / 2) maxKernelError)
    else Clock.maxErrorMicros

omit [FloorRing K] [IsStrictOrderedRing K] in
/-- A synchronised engine tells the kernel its leap, and for an unknown one the armed leap or
none, never that it is unknown. -/
theorem kernelStatus_synced {st : Discipline.Status K} (wall : ℤ)
    (harmed : ∀ a, e.pendingLeap = some a → a.kind = .insert ∨ a.kind = .delete)
    (hsync : st.synced = true) : ∃ l, e.kernelStatus st wall = ⟨true, l,
      max 0 (min 16 (st.rootDisp + st.rootDelay / 2)), max 0 (min 16 st.jitter)⟩ ∧
      l ≠ .unsync ∧ (st.leap ≠ .unsync → l = st.leap) ∧
      (st.leap = .unsync → l = .none ∨ ∃ a ∈ e.pendingLeap, l = a.kind) := by
  by_cases hleap : st.leap = .unsync
  · refine ⟨_, by rw [Engine.kernelStatus, hsync, if_pos rfl, if_pos hleap], ?_,
      fun h => absurd hleap h, fun _ => ?_⟩
    · cases hp : e.pendingLeap with
      | none => exact Ntp.Leap.noConfusion
      | some a =>
        simp only [Option.elim]
        split_ifs
        · rcases harmed a hp with h | h <;> rw [h] <;> exact Ntp.Leap.noConfusion
        · exact Ntp.Leap.noConfusion
    · cases e.pendingLeap with
      | none => exact .inl rfl
      | some a =>
        simp only [Option.elim]
        split_ifs
        · exact .inr ⟨a, rfl, rfl⟩
        · exact .inl rfl
  · exact ⟨st.leap, by rw [Engine.kernelStatus, hsync, if_pos rfl, if_neg hleap], hleap,
      fun _ => rfl, fun h => absurd h hleap⟩

/-- The words that the engine has last written show the snapshot they were made for. -/
theorem shows_of_status {before t : Timex} {st : Discipline.Status K} {wall : ℤ}
    (harmed : ∀ a, e.pendingLeap = some a → a.kind = .insert ∨ a.kind = .delete)
    (hstatus : t.status = Clock.statusWord before.status (e.kernelStatus st wall).status)
    (hmax : t.maxerror = Clock.errorMicros (e.kernelStatus st wall).status.maxError) :
    Shows before t e.pendingLeap st := by
  have hothers : t.status &&& ~~~Clock.disciplineBits =
      before.status &&& ~~~Clock.disciplineBits := by
    rw [hstatus]
    exact Clock.statusWord_and_not _ _
  have howned : ∀ b, Clock.disciplineBits &&& b = b →
      t.status &&& b = (e.kernelStatus st wall).status.bits &&& b := by
    intro b hb
    rw [hstatus]
    exact Clock.statusWord_and_of_owned _ _ hb
  -- the bits are known in both cases, so that each flag is a finite check
  cases hsync : st.synced with
  | false =>
    have hks : e.kernelStatus st wall = unsyncStatus := by
      rw [Engine.kernelStatus, hsync, if_neg Bool.false_ne_true]
      rfl
    have hlimit : boundSeconds (16 : K) maxKernelError = maxKernelError := boundSeconds_limit le_rfl
    rw [hks, Clock.Status.bits_unsynced rfl rfl] at howned
    refine ⟨?_, by simp [hsync], by simp [hsync], fun _ => ?_, ?_, hothers, ?_⟩
    · rw [howned _ (by decide), hsync]
      decide
    · rw [howned _ (by decide)]
      decide
    · rw [howned _ (by decide)]
      decide
    · rw [hmax, hks, hsync, if_neg Bool.false_ne_true, KernelStatus.status, unsyncStatus, hlimit]
      rfl
  | true =>
    obtain ⟨l, hl, hne, hleap, hunknown⟩ := kernelStatus_synced wall harmed hsync
    rw [hl, Clock.Status.bits_synced rfl hne] at howned
    change ∀ b, _ → t.status &&& b = Clock.leapBits l &&& b at howned
    have hbits : t.status &&& (Clock.staINS ||| Clock.staDEL) = Clock.leapBits l := by
      rw [howned _ (by decide)]
      cases l <;> decide
    refine ⟨?_, fun _ h => ?_, fun _ h => ?_, by simp [hsync], ?_, hothers, ?_⟩
    · rw [howned _ (by decide), hsync]
      cases l <;> decide
    · rw [hbits, hleap h]
    · rw [hbits]
      rcases hunknown h with rfl | ⟨a, ha, rfl⟩
      · exact .inl rfl
      · exact .inr ⟨a, ha, rfl⟩
    · rw [howned _ (by decide)]
      cases l <;> decide
    · rw [hmax, hl, hsync, if_pos rfl, KernelStatus.status, boundSeconds_clamp]

omit [FloorRing K] [IsStrictOrderedRing K] in
/-- `report` of the engine, once the kernel has the status: the rest is the publication. -/
theorem report_published {sha256 : Bytes → Digest} {res : Discipline.Result K} {now : K}
    {r : Readings} (h : (e.report sha256 res now r).alive = true) :
    ∃ (e' : Engine K) (p : Published K), e'.pendingLeap = (e.report sha256 res now r).pendingLeap ∧
      (e.report sha256 res now r).published.getLast? = some p ∧
      (e.report sha256 res now r).lastKernel = some (e'.kernelStatus p.status r.kernel) := by
  unfold Engine.report at h ⊢
  generalize e.applyLeap sha256 (e.sys.status now) r.apply = A at h ⊢
  dsimp only at h ⊢
  -- a kernel that refuses the status ends the run
  have hlast : (A.1.syncKernel A.2 r.kernel r.accepts).alive = true →
      (A.1.syncKernel A.2 r.kernel r.accepts).lastKernel =
      some (A.1.kernelStatus A.2 r.kernel) := by
    unfold Engine.syncKernel
    split_ifs with hsame hacc
    · exact fun _ => hsame
    · exact fun _ => rfl
    · exact fun hf => by cases hf
  have hpending : (A.1.syncKernel A.2 r.kernel r.accepts).pendingLeap = A.1.pendingLeap := by
    unfold Engine.syncKernel
    split_ifs <;> rfl
  by_cases halive : (A.1.syncKernel A.2 r.kernel r.accepts).alive = true
  · rw [if_pos halive]
    exact ⟨A.1, _, hpending.symm, List.getLast?_concat, hlast halive⟩
  · rw [if_neg halive] at h
    exact absurd h halive

end

/-- **Kernel and snapshot agree.**  In every run of an engine as `New` builds it, after every call
that handles a result and returns, the kernel's words show the status that the call has published
last, with its leap bits; the kernel's bits that are not the daemon's are as they were before the
run. -/
theorem kernel_agrees [FloorRing K] [IsStrictOrderedRing K] [HasSqrt K] (sha256 : Bytes → Digest)
    (e : Engine K) (t : Timex) (cs : List (Call K × (Action K → Bool))) (d d' : Driven K)
    (c : Call K × (Action K → Bool)) (he : e.pendingLeap = none)
    (hrun : Runs.run (Driven.call sha256) (Driven.start e t) cs = some d)
    (hcall : d.call sha256 c = some d') (hhandles : (d.engine.submit sha256 c.1).2 ≠ none)
    (halive : d'.engine.alive = true) :
    ∃ p, d'.engine.published.getLast? = some p ∧
      Shows t d'.timex d'.engine.pendingLeap p.status := by
  have hmirrors : d'.Mirrors t := mirrors_call (mirrors_run he hrun) hcall
  obtain ⟨e', p, wall, hpending, hp, hlast⟩ : ∃ (e' : Engine K) (p : Published K) (wall : ℤ),
      e'.pendingLeap = d'.engine.pendingLeap ∧ d'.engine.published.getLast? = some p ∧
      d'.engine.lastKernel = some (e'.kernelStatus p.status wall) := by
    unfold Driven.call at hcall
    split_ifs at hcall
    split at hcall
    · rename_i x hsubmit
      rw [hsubmit] at hhandles
      exact absurd rfl hhandles
    · rename_i x handling hsubmit
      cases hcall
      unfold Driven.handle at halive ⊢
      dsimp only at halive ⊢
      split_ifs at halive ⊢ with hperformed
      · obtain ⟨e', p, hpublished⟩ := report_published halive
        exact ⟨e', p, _, hpublished⟩
      · exact absurd halive hperformed
  obtain ⟨ks, hks, hstatus, hmax, -⟩ := hmirrors.status
  cases hlast.symm.trans hks
  rw [← hpending]
  exact ⟨p, hp, shows_of_status (hpending ▸ hmirrors.armed) hstatus hmax⟩

section Samples

open Leap (firstBytes)

/-- The tick leaves the kernel with the status of its snapshot: synchronised, and with the bit that
the kernel counts nanoseconds. -/
theorem kernel_agrees_slewing :
    ∃ d d' p, Runs.run (Driven.call firstBytes) booted acquiringCalls = some d ∧
      d.call firstBytes slewingTick = some d' ∧ d'.timex.status = 0x2000 ∧
      d'.engine.published.getLast? = some p ∧
      Shows bootKernel d'.timex d'.engine.pendingLeap p.status := by
  have h : (Runs.run (Driven.call firstBytes) booted acquiringCalls).map
        (fun d => ((d.engine.submit firstBytes slewingTick.1).2.isSome,
          (d.call firstBytes slewingTick).map fun d' => (d'.timex.status, d'.engine.alive))) =
      some (true, some (0x2000, true)) := by decide +kernel
  obtain ⟨d, hd, hwords⟩ := Option.map_eq_some_iff.mp h
  obtain ⟨hsome, hcall⟩ := Prod.mk.inj hwords
  obtain ⟨d', hd', hend⟩ := Option.map_eq_some_iff.mp hcall
  obtain ⟨hstatus, halive⟩ := Prod.mk.inj hend
  obtain ⟨p, hp, hshows⟩ := kernel_agrees firstBytes _ bootKernel acquiringCalls d d' slewingTick
    (by decide +kernel) hd hd' (Option.isSome_iff_ne_none.mp hsome) halive
  exact ⟨d, d', p, hd, hd', hstatus, hp, hshows⟩

end Samples

end Carillon
