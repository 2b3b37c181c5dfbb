/-
# The leap latch

What the engine's calls do to the armed boundary, one thing at a time: `Latch` keeps
the fields a leap goes through, and `Latch.Step` lists everything that can happen to
them.  `latch_call` shows that every call of the engine is a sequence of such steps, so
that a property of the steps is a property of every run.

The first such property is that a leap is executed once: the boundaries executed
increase, and no boundary is armed at or below an executed one.  The second needs the
armings to lie ahead of the last wall time seen; then a check or a step that sees the
wall clock at or past an armed boundary always disarms it.
-/
import Mathlib.Logic.Relation
import Carillon.Engine.Leap
import Carillon.Lib.Runs

namespace Carillon

open Discipline (HasSqrt Measurement Action)
open Leap (Digest Object Record Table)

/-! ## The latch and its steps -/

/-- The part of the engine that a leap goes through. -/
structure Latch where
  lastWall : ℤ
  pending : Option Armed
  executed : ℤ
  active : Option Object
  log : List Note

/-- A check or a step sees the wall clock. -/
def Latch.saw (l : Latch) (wall : ℤ) (before : Option Armed) : Latch :=
  { l with lastWall := wall, log := l.log ++ [.saw wall before l.pending] }

/-- The armed leap is a transition of a table in force. -/
def Armed.In (a : Armed) (t : Table) : Prop :=
  ⟨a.boundary, a.kind⟩ ∈ t.transitions

instance (a : Armed) (t : Table) : Decidable (a.In t) :=
  inferInstanceAs (Decidable (⟨a.boundary, a.kind⟩ ∈ t.transitions))

/-- A leap armed under a table is in a valid table, which is the active object's if
there is one. -/
def Armed.Grounded (a : Armed) (active : Option Object) : Prop :=
  ∃ t : Table, t.Valid ∧ a.In t ∧ ∀ o ∈ active, o.table = t

/-- Everything that can happen to the latch. -/
inductive Latch.Step : Latch → Latch → Prop
  /-- The kernel applied the armed boundary, or a step went past it. -/
  | execute {l : Latch} {a : Armed} (wall : ℤ) (n : Note) (armed : l.pending = some a)
      (note : n = .crossed a.boundary ∨ n = .passed a.boundary) :
      Step l ({ l with executed := a.boundary, pending := none, log := l.log ++ [n] }.saw
        wall (some a))
  /-- The wall clock was seen and nothing followed. -/
  | look {l : Latch} (wall : ℤ)
      (ahead : ∀ a ∈ l.pending, l.lastWall ≠ 0 → l.lastWall < a.boundary → wall < a.boundary) :
      Step l (l.saw wall l.pending)
  | arm {l : Latch} (a : Armed) (idle : l.pending = none) (fresh : l.executed < a.boundary)
      (next : a.boundary = nextMidnight a.wall)
      (grounded : a.authority ≠ .sources → a.Grounded l.active) :
      Step l { l with pending := some a, log := l.log ++ [.armed a l.lastWall l.active] }
  | activate {l : Latch} (o : Object) (kept : ∀ a ∈ l.pending, a.In o.table) :
      Step l { l with active := some o, log := l.log ++ [.activated o l.pending] }

/-- Any number of steps. -/
def Latch.Steps : Latch → Latch → Prop := Relation.ReflTransGen Latch.Step

/-- What each step keeps, any number of them keeps. -/
theorem Latch.Steps.invariant {J : Latch → Prop} (hstep : ∀ l l', Latch.Step l l' → J l → J l')
    {l l' : Latch} (h : Latch.Steps l l') (hl : J l) : J l' := by
  induction h with
  | refl => exact hl
  | tail _ hlast ih => exact hstep _ _ hlast ih

variable {K : Type}

/-- The latch of an engine. -/
def Engine.latch (e : Engine K) : Latch :=
  ⟨e.lastLeapWall, e.pendingLeap, e.executedLeap, e.activeLeap.map (·.object), e.log⟩

/-! ## The engine's calls are steps of the latch -/

section Refinement

/-- `look` for an engine. -/
theorem latch_see {e : Engine K} {wall : ℤ}
    (h : ∀ a ∈ e.pendingLeap, e.lastLeapWall ≠ 0 → e.lastLeapWall < a.boundary →
      wall < a.boundary) : Latch.Step e.latch (e.see wall e.pendingLeap).latch :=
  .look (l := e.latch) wall h

theorem latch_stepped (e : Engine K) (after : ℤ) :
    Latch.Step e.latch (e.stepped after).latch := by
  unfold Engine.stepped
  dsimp only
  split
  case h_1 a ha =>
    split
    · rw [ha]
      exact .execute (l := e.latch) after (.passed a.boundary) ha (.inr rfl)
    case isFalse hnot =>
      refine latch_see fun b hb _ _ => ?_
      rw [ha, Option.mem_some_iff] at hb
      rw [← hb]
      omega
  case h_2 hnone =>
    refine latch_see fun b hb _ _ => ?_
    rw [hnone] at hb
    exact absurd hb (Option.not_mem_none b)

/-- A warning is armed at the next midnight, or nothing happens. -/
theorem latch_notePendingLeap (e : Engine K) (warning : Ntp.Leap) (wall : ℤ)
    (h : e.leapAuthority ≠ .sources → ∃ t : Table, t.Valid ∧ warning = t.indicator wall ∧
      ∀ o ∈ e.latch.active, o.table = t) :
    Latch.Steps e.latch (e.notePendingLeap warning wall).latch := by
  unfold Engine.notePendingLeap
  dsimp only
  split
  case isTrue hc =>
    obtain ⟨hwarning, hidle, hfresh⟩ := hc
    refine .single (.arm (l := e.latch) ⟨nextMidnight wall, warning, wall, e.leapAuthority⟩ hidle
      hfresh rfl fun hauthority => ?_)
    obtain ⟨t, hvalid, rfl, hactive⟩ := h hauthority
    refine ⟨t, hvalid, hvalid.indicator_mem fun hnone => ?_, hactive⟩
    rw [hnone] at hwarning
    exact absurd hwarning (by decide)
  case isFalse => exact .refl

/-- The authority decides without touching the latch.  Where it is a table, the
indicator it gives is that table's. -/
theorem judge_spec (sha256 : Bytes → Digest) (e : Engine K) (st : Discipline.Status K) (wall : ℤ) :
    (e.judge sha256 st wall).1.latch = e.latch ∧
    ((e.judge sha256 st wall).1.leapReady = true →
      (e.judge sha256 st wall).1.leapAuthority ≠ .sources →
      (e.judge sha256 st wall).2.synced = true →
      ∃ t : Table, t.Valid ∧ (e.judge sha256 st wall).2.leap = t.indicator wall ∧
        ∀ o ∈ e.latch.active, o.table = t) := by
  have htable : ∀ validAt t, e.table sha256 validAt = .ok t →
      t.Valid ∧ ∀ o ∈ e.latch.active, o.table = t := by
    intro validAt t h
    unfold Engine.table at h
    unfold Engine.latch
    split at h
    case h_1 _ _ r hr =>
      split at h
      · cases h
        refine ⟨r.object.valid, fun o ho => ?_⟩
        rw [hr, Option.map_some, Option.mem_some_iff] at ho
        rw [ho]
      · cases h
    case h_2 f hr hf =>
      split at h
      · cases h
        refine ⟨f.property, fun o ho => ?_⟩
        rw [hr, Option.map_none] at ho
        exact absurd ho (Option.not_mem_none o)
      · cases h
    case h_3 => cases h
  unfold Engine.judge
  dsimp only
  split
  case h_1 t ht =>
    obtain ⟨hvalid, hactive⟩ := htable _ t ht
    split
    · refine ⟨rfl, fun _ _ hsynced => ⟨t, hvalid, ?_, hactive⟩⟩
      dsimp only at hsynced ⊢
      split at hsynced
      case isTrue h => rw [if_pos h]
      case isFalse h => exact absurd hsynced h
    · exact ⟨rfl, fun h => absurd h Bool.false_ne_true⟩
  case h_2 =>
    split
    · exact ⟨rfl, fun _ h => absurd rfl h⟩
    · exact ⟨rfl, fun h => absurd h Bool.false_ne_true⟩

variable [Field K] [LinearOrder K]

/-- Applying a leap is a sequence of steps. -/
theorem latch_applyLeap (sha256 : Bytes → Digest) (e : Engine K) (st : Discipline.Status K)
    (wall : ℤ) : Latch.Steps e.latch (e.applyLeap sha256 st wall).1.latch := by
  obtain ⟨hlatch, htable⟩ := judge_spec sha256 (e.establish st wall) st wall
  have hestablish : (e.establish st wall).latch = e.latch := rfl
  rw [hestablish] at hlatch htable
  unfold Engine.applyLeap Engine.announce
  dsimp only
  generalize (e.establish st wall).judge sha256 st wall = j at hlatch htable
  rw [← hlatch] at htable ⊢
  split
  case isTrue hready =>
    split
    case isTrue hsynced =>
      exact latch_notePendingLeap j.1 j.2.leap wall fun h => htable hready h hsynced
    case isFalse => exact .refl
  case isFalse =>
    split
    · exact .refl
    · exact .refl

theorem latch_crossLeap [HasSqrt K] (e : Engine K) (now : K) (wall : ℤ) :
    Latch.Step e.latch (e.crossLeap now wall).latch := by
  unfold Engine.crossLeap
  dsimp only
  split
  case h_1 a ha =>
    split
    · rw [ha]
      exact .execute (l := e.latch) wall (.crossed a.boundary) ha (.inl rfl)
    case isFalse hnot =>
      refine latch_see fun b hb hne hlt => ?_
      rw [ha, Option.mem_some_iff] at hb
      subst hb
      by_contra hle
      refine hnot ?_
      unfold Engine.crosses
      dsimp only
      rw [decide_eq_true_eq]
      exact ⟨hne, .inr ⟨hlt, not_lt.mp hle⟩⟩
  case h_2 hnone =>
    refine latch_see fun b hb _ _ => ?_
    rw [hnone] at hb
    exact absurd hb (Option.not_mem_none b)

/-- So is an action. -/
theorem latch_act (r : Readings) (e : Engine K) (a : Action K) :
    Latch.Steps e.latch (e.act r a).latch := by
  unfold Engine.act
  split
  · split
    · exact .refl
    · split
      · exact .refl
      · dsimp only
        split
        · exact .single (latch_stepped { e with gen := e.gen + 2, alive := r.actuates } r.after)
        · exact .refl
    · exact .refl
  · exact .refl

theorem latch_acts (r : Readings) (actions : List (Action K)) (e : Engine K) :
    Latch.Steps e.latch (actions.foldl (Engine.act r) e).latch := by
  induction actions generalizing e with
  | nil => exact .refl
  | cons a actions ih => exact (latch_act r e a).trans (ih (e.act r a))

/-- The kernel flags are no part of the latch. -/
theorem latch_syncKernel (e : Engine K) (st : Discipline.Status K) (wall : ℤ) (accepts : Bool) :
    (e.syncKernel st wall accepts).latch = e.latch := by
  unfold Engine.syncKernel
  split
  · rfl
  · split <;> rfl

variable (sha256 : Bytes → Digest)

/-- So is a report. -/
theorem latch_report (e : Engine K) (res : Discipline.Result K) (now : K) (r : Readings) :
    Latch.Steps e.latch (e.report sha256 res now r).latch := by
  have happly := latch_applyLeap sha256 e (e.sys.status now) r.apply
  unfold Engine.report
  dsimp only
  generalize e.applyLeap sha256 (e.sys.status now) r.apply = x at happly
  rw [← latch_syncKernel x.1 x.2 r.kernel r.accepts] at happly
  split
  · exact happly
  · exact happly

theorem latch_publish (e : Engine K) (mono : K) (wall snapshot : ℤ) :
    Latch.Steps e.latch (e.publish sha256 mono wall snapshot).latch :=
  latch_applyLeap sha256 (e.processing mono).1 _ wall

/-- So is a check for the updater. -/
theorem latch_checkLeap (e : Engine K) (r : Record) (wall : ℤ) (mono : K) :
    Latch.Steps e.latch (e.checkLeap sha256 r wall mono).1.latch :=
  latch_applyLeap sha256 (e.processing mono).1 _ wall

/-- What a check that accepts a candidate has found: the candidate keeps the armed
leap. -/
theorem checkLeap_ok {e : Engine K} {r : Record} {wall : ℤ} {mono : K}
    (h : (e.checkLeap sha256 r wall mono).2 = .ok ()) :
    ∀ a ∈ (e.checkLeap sha256 r wall mono).1.pendingLeap, a.In r.object.table := by
  unfold Engine.checkLeap at h ⊢
  dsimp only at h ⊢
  split at h
  · split at h
    · cases h
    · split at h
      case isTrue hall =>
        intro a ha
        rw [Option.all_eq_true] at hall
        exact of_decide_eq_true (hall a ha)
      · cases h
  · cases h

omit [Field K] [LinearOrder K] in
theorem latch_noteSourceAlive (e : Engine K) (name : Discipline.Name) :
    Latch.Steps e.latch (e.noteSourceAlive name).latch := by
  unfold Engine.noteSourceAlive
  split <;> exact .refl

variable [HasSqrt K]

/-- So is a result of the discipline. -/
theorem latch_handle (e : Engine K) (res : Discipline.Result K) (now : K) (r : Readings) :
    Latch.Steps e.latch (e.handle sha256 res now r).latch := by
  have hcross := latch_crossLeap (e.processing now).1 (e.processing now).2 r.cross
  have hperform : Latch.Steps e.latch
      ((e.processing now).1.perform res (e.processing now).2 r).latch :=
    .head hcross (latch_acts r res.actions _)
  unfold Engine.handle
  dsimp only
  split
  · exact hperform.trans (latch_report sha256 _ _ _ _)
  · exact hperform

/-- So is a request of the updater. -/
theorem latch_leapRequest (e : Engine K) (record : Record) (activate : Bool) (mono : K)
    (cross check : ℤ) (mono' mono'' : K) (r : Readings) :
    Latch.Steps e.latch
      (e.leapRequest sha256 record activate mono cross check mono' mono'' r).1.latch := by
  have hcross := latch_crossLeap (e.processing mono).1 (e.processing mono).2 cross
  have hcheck : Latch.Steps e.latch
      (((e.processing mono).1.crossLeap (e.processing mono).2 cross).checkLeap sha256 record check
        mono').1.latch :=
    .head hcross (latch_checkLeap sha256 _ record check mono')
  unfold Engine.leapRequest
  dsimp only
  split
  · exact hcheck
  case h_2 hok =>
    have hkept := checkLeap_ok sha256 hok
    split
    · exact hcheck
    · split
      · exact hcheck
      · exact hcheck.tail (.activate (l := Engine.latch _) record.object hkept)

/-- So is a call, whichever it is. -/
theorem latch_submit (e : Engine K) (c : Call K) :
    Latch.Steps e.latch (e.submit sha256 c).1.latch := by
  cases c with
  | tick mono cross r =>
    exact .single (latch_crossLeap (e.processing mono).1 (e.processing mono).2 cross)
  | measurement m mono cross mono' r =>
    have hcross := latch_crossLeap (e.processing mono).1 (e.processing mono).2 cross
    unfold Engine.submit
    dsimp only
    split
    · exact .single hcross
    · exact .head hcross (latch_noteSourceAlive
        (((e.processing mono).1.crossLeap (e.processing mono).2 cross).processing mono').1 m.source)
  | sourceStopped name poll mono r =>
    unfold Engine.submit
    dsimp only
    split
    · exact .refl
    · exact .refl
  | sourceRestarting name mono wall snapshot =>
    exact latch_publish sha256 { e with restarting := name :: e.restarting } mono wall snapshot
  | leapRequest record activate mono cross check mono' mono'' r =>
    exact latch_leapRequest sha256 e record activate mono cross check mono' mono'' r

/-- Every call of the engine is a sequence of steps of the latch. -/
theorem latch_call {e e' : Engine K} {c : Call K} (h : e.call sha256 c = some e') :
    Latch.Steps e.latch e'.latch := by
  have hsubmit := latch_submit sha256 e c
  unfold Engine.call at h
  split at h
  · split at h
    case h_1 x hx =>
      cases h
      rw [hx] at hsubmit
      exact hsubmit
    case h_2 x handling hx =>
      cases h
      rw [hx] at hsubmit
      exact hsubmit.trans (latch_handle sha256 x handling.result handling.now handling.readings)
  · cases h

/-- So is every run. -/
theorem latch_run {e e' : Engine K} {calls : List (Call K)}
    (h : Runs.run (Engine.call sha256) e calls = some e') : Latch.Steps e.latch e'.latch := by
  induction calls generalizing e with
  | nil =>
    cases h
    exact .refl
  | cons c calls ih =>
    obtain ⟨x, hx, hrest⟩ := Runs.run_cons_eq_some.mp h
    exact (latch_call sha256 hx).trans (ih hrest)

/-- An engine that a run reaches: its latch started with the wall clock seen once and
nothing armed. -/
theorem latch_reached {cfg : EngineConfig K} {state : Leap.State} {freq : K} {known : Bool}
    {started : ℤ} {mono : K} {wall snapshot : ℤ} {calls : List (Call K)} {e : Engine K}
    (h : Runs.run (Engine.call sha256)
      (Engine.new sha256 cfg state freq known started mono wall snapshot) calls = some e) :
    Latch.Steps ⟨started, none, state.executed, state.active.map (·.object), []⟩ e.latch :=
  (latch_publish sha256 (Engine.init cfg state freq known started mono) mono wall snapshot).trans
    (latch_run sha256 h)

end Refinement

end Carillon
