/-
# Expiry survives a clock that is set back

The greatest UTC that was established, `UTCbound`, decides whether an object has
expired, and it only grows.  So an object that a published bound has reached is never
an authority again, and neither is it for an engine that starts from a state with that
bound.  The executed leap stays below the bound as well; the one place where that is
not immediate is a step past an armed leap, after which the discipline has started over
and UTC is known at once.
-/
import Carillon.Discipline.Stepping
import Carillon.Engine.Once

namespace Carillon

open Discipline (HasSqrt Measurement Action)
open Leap (Digest Object Record Table)

variable {K : Type}

/-! ## The ledger -/

/-- What a snapshot says about expiry is read off these. -/
structure Ledger (K : Type) where
  utcBound : ℤ
  startup : ℤ
  executed : ℤ
  active : Option Record
  published : List (Published K)

/-- The ledger of an engine. -/
def Engine.ledger (e : Engine K) : Ledger K :=
  ⟨e.utcBound, e.startupUTCbound, e.executedLeap, e.activeLeap, e.published⟩

/-- The status reports the object as the ready authority, or exports it. -/
def Published.Authorises (p : Published K) (o : Object) : Prop :=
  (p.leapReady = true ∧ p.leapSource ≠ .sources ∧ p.leapRecord.map (·.object) = some o) ∨
    p.leapObject = some o

/-- The bound of the status has not reached the expiry of an object it authorises. -/
def Published.Current (p : Published K) : Prop :=
  ∀ o, p.Authorises o → p.utcBound < o.table.expiry

/-- The authority of an engine is ready, is a table, and has not expired. -/
def Engine.Fresh (e : Engine K) : Prop :=
  e.leapReady = true → e.leapAuthority ≠ .sources →
    ∀ r ∈ e.activeLeap, e.utcBound < r.object.table.expiry

variable {e : Engine K}

/-- A table is handed out before it expires only. -/
theorem table_unexpired {sha256 : Bytes → Digest} {validAt : ℤ} {t : Table}
    (h : e.table sha256 validAt = .ok t) : ∀ r ∈ e.activeLeap, validAt < r.object.table.expiry := by
  intro r hr
  unfold Engine.table at h
  rw [Option.mem_def.mp hr] at h
  dsimp only at h
  split at h
  case h_1 u hok => exact (Leap.checkUpdate_none_iff.mp hok).unexpired
  case h_2 => cases h

/-- A judgement keeps the ledger and ends with a fresh authority. -/
theorem judge_ledger (sha256 : Bytes → Digest) (e : Engine K) (st : Discipline.Status K)
    (wall : ℤ) :
    (e.judge sha256 st wall).1.ledger = e.ledger ∧ (e.judge sha256 st wall).1.Fresh := by
  unfold Engine.judge
  dsimp only
  split
  case h_1 t ht =>
    split
    · refine ⟨rfl, fun _ _ r hr => ?_⟩
      exact (le_max_right wall e.utcBound).trans_lt (table_unexpired ht r hr)
    · exact ⟨rfl, fun h => absurd h Bool.false_ne_true⟩
  case h_2 =>
    split
    · exact ⟨rfl, fun _ h => absurd rfl h⟩
    · exact ⟨rfl, fun h => absurd h Bool.false_ne_true⟩

theorem notePendingLeap_ledger (e : Engine K) (warning : Ntp.Leap) (wall : ℤ) :
    (e.notePendingLeap warning wall).ledger = e.ledger ∧
      (e.Fresh → (e.notePendingLeap warning wall).Fresh) := by
  unfold Engine.notePendingLeap
  dsimp only
  split
  · exact ⟨rfl, id⟩
  · exact ⟨rfl, id⟩

variable [Field K] [LinearOrder K]

/-- `applyLeap` moves the bound as `establish` does, and leaves an authority that has
not expired. -/
theorem applyLeap_ledger (sha256 : Bytes → Digest) (e : Engine K) (st : Discipline.Status K)
    (wall : ℤ) : (e.applyLeap sha256 st wall).1.ledger = (e.establish st wall).ledger ∧
      (e.applyLeap sha256 st wall).1.Fresh := by
  obtain ⟨hledger, hfresh⟩ := judge_ledger sha256 (e.establish st wall) st wall
  unfold Engine.applyLeap Engine.announce
  dsimp only
  generalize (e.establish st wall).judge sha256 st wall = j at hledger hfresh
  rw [← hledger]
  split
  · split
    · obtain ⟨hnote, hkeep⟩ := notePendingLeap_ledger j.1 j.2.leap wall
      exact ⟨hnote, hkeep hfresh⟩
    · exact ⟨rfl, hfresh⟩
  · split
    · exact ⟨rfl, hfresh⟩
    · exact ⟨rfl, hfresh⟩

/-- Applying a leap publishes nothing. -/
theorem applyLeap_published (sha256 : Bytes → Digest) (e : Engine K) (st : Discipline.Status K)
    (wall : ℤ) : (e.applyLeap sha256 st wall).1.published = e.published :=
  congrArg Ledger.published (applyLeap_ledger sha256 e st wall).1

/-- The bound never falls. -/
theorem establish_bound (e : Engine K) (st : Discipline.Status K) (wall : ℤ) :
    e.utcBound ≤ (e.establish st wall).utcBound := by
  show e.utcBound ≤ if e.knowsTime st wall then max e.utcBound wall else e.utcBound
  split
  · exact le_max_left _ _
  · exact le_rfl

theorem syncKernel_ledger (e : Engine K) (st : Discipline.Status K) (wall : ℤ) (accepts : Bool) :
    (e.syncKernel st wall accepts).ledger = e.ledger ∧
      (e.Fresh → (e.syncKernel st wall accepts).Fresh) := by
  unfold Engine.syncKernel
  split
  · exact ⟨rfl, id⟩
  · split
    · exact ⟨rfl, id⟩
    · exact ⟨rfl, id⟩

/-! ## What has been published -/

/-- The published bounds grow from `start` to the engine's own, and no status
authorises an object that its bound has reached. -/
structure Engine.Recorded (start : ℤ) (e : Engine K) : Prop where
  bound : start ≤ e.utcBound
  ordered : e.published.Pairwise fun p q => p.utcBound ≤ q.utcBound
  range : ∀ p ∈ e.published, start ≤ p.utcBound ∧ p.utcBound ≤ e.utcBound
  current : ∀ p ∈ e.published, p.Current

variable {start : ℤ}

omit [Field K] [LinearOrder K] in
/-- Raising the bound keeps the record. -/
theorem Engine.Recorded.raise {e e' : Engine K} (h : e.Recorded start)
    (hpublished : e'.published = e.published) (hbound : e.utcBound ≤ e'.utcBound) :
    e'.Recorded start where
  bound := h.bound.trans hbound
  ordered := by
    rw [hpublished]
    exact h.ordered
  range := by
    rw [hpublished]
    exact fun p hp => ⟨(h.range p hp).1, (h.range p hp).2.trans hbound⟩
  current := by
    rw [hpublished]
    exact h.current

omit [Field K] [LinearOrder K] in
/-- So does a status that is published under a fresh authority. -/
theorem Engine.Recorded.publishStatus (h : e.Recorded start) (hfresh : e.Fresh)
    (st : Discipline.Status K) (now : K) (wall : ℤ) :
    (e.publishStatus st now wall).Recorded start where
  bound := h.bound
  ordered := by
    refine List.pairwise_append.mpr ⟨h.ordered, List.pairwise_singleton _ _, fun p hp q hq => ?_⟩
    rw [List.mem_singleton.mp hq]
    exact (h.range p hp).2
  range := List.forall_mem_append.mpr ⟨h.range, List.forall_mem_singleton.mpr ⟨h.bound, le_rfl⟩⟩
  current := by
    refine List.forall_mem_append.mpr ⟨h.current, List.forall_mem_singleton.mpr fun o ho => ?_⟩
    have hauthority : e.leapReady = true ∧ e.leapAuthority ≠ .sources ∧
        e.activeLeap.map (·.object) = some o := by
      rcases ho with ho | ho
      · exact ho
      · dsimp only at ho
        split at ho
        case isTrue hready =>
          rw [Bool.and_eq_true, decide_eq_true_eq] at hready
          exact ⟨hready.1, hready.2, ho⟩
        case isFalse => cases ho
    obtain ⟨hready, htable, hobject⟩ := hauthority
    obtain ⟨r, hr, rfl⟩ := Option.map_eq_some_iff.mp hobject
    exact hfresh hready htable r hr

omit [Field K] in
theorem Engine.Recorded.processing (h : e.Recorded start) (mono : K) :
    (e.processing mono).1.Recorded start :=
  h.raise rfl le_rfl

theorem recorded_applyLeap (sha256 : Bytes → Digest) (h : e.Recorded start)
    (st : Discipline.Status K) (wall : ℤ) : (e.applyLeap sha256 st wall).1.Recorded start := by
  have hledger := (applyLeap_ledger sha256 e st wall).1
  refine h.raise (applyLeap_published sha256 e st wall) ?_
  rw [show (e.applyLeap sha256 st wall).1.utcBound = (e.establish st wall).utcBound from
    congrArg Ledger.utcBound hledger]
  exact establish_bound e st wall

theorem recorded_crossLeap [HasSqrt K] (h : e.Recorded start) (now : K) (wall : ℤ) :
    (e.crossLeap now wall).Recorded start := by
  unfold Engine.crossLeap
  dsimp only
  split
  · split
    · exact h.raise rfl (le_max_left _ _)
    · exact h.raise rfl le_rfl
  · exact h.raise rfl le_rfl

theorem crossLeap_published [HasSqrt K] (e : Engine K) (now : K) (wall : ℤ) :
    (e.crossLeap now wall).published = e.published := by
  unfold Engine.crossLeap
  dsimp only
  split
  · split <;> rfl
  · rfl

omit [Field K] [LinearOrder K] in
/-- A step may execute an armed leap that it goes past, and touches nothing else of the
ledger. -/
theorem stepped_ledger (e : Engine K) (after : ℤ) :
    (e.stepped after).sys = e.sys ∧
    (e.stepped after).ledger = { e.ledger with executed := (e.stepped after).executedLeap } ∧
    ((e.stepped after).executedLeap = e.executedLeap ∨
      e.pendingLeap ≠ none ∧ (e.stepped after).executedLeap ≤ after) ∧
    (e.pendingLeap = none → (e.stepped after).pendingLeap = none) := by
  unfold Engine.stepped
  dsimp only
  split
  case h_1 a ha =>
    split
    case isTrue hle => exact ⟨rfl, rfl, .inr ⟨by simp [ha], hle⟩, fun _ => rfl⟩
    case isFalse => exact ⟨rfl, rfl, .inl rfl, id⟩
  case h_2 => exact ⟨rfl, rfl, .inl rfl, id⟩

/-- What the actions of a result can do: nothing but execute the armed leap, by a step
that ends past it. -/
structure Engine.Acted (r : Readings) (stepped : Bool) (e e' : Engine K) : Prop where
  sys : e'.sys = e.sys
  ledger : e'.ledger = { e.ledger with executed := e'.executedLeap }
  executed : e'.executedLeap = e.executedLeap ∨
    e.pendingLeap ≠ none ∧ stepped = true ∧ e'.executedLeap ≤ r.after
  pending : e.pendingLeap = none → e'.pendingLeap = none

/-- What one action can do. -/
theorem act_acted (r : Readings) (e : Engine K) (a : Action K) :
    e.Acted r a.isStep (e.act r a) := by
  have hidle : ∀ (gen : ℕ) (alive : Bool),
      e.Acted r a.isStep { e with gen := gen, alive := alive } :=
    fun gen alive => ⟨rfl, rfl, .inl rfl, id⟩
  unfold Engine.act
  split
  · cases a with
    | setFrequency ppm => exact hidle _ _
    | step v =>
      dsimp only
      split
      · exact hidle _ _
      · split
        · obtain ⟨hsys, hledger, hexecuted, hpending⟩ :=
            stepped_ledger { e with gen := e.gen + 2, alive := r.actuates } r.after
          exact ⟨hsys, hledger, hexecuted.imp id fun ⟨hne, hle⟩ => ⟨hne, rfl, hle⟩, hpending⟩
        · exact hidle _ _
    | resetFilters => exact hidle _ _
  · exact hidle _ _

/-- What the actions of a result can do. -/
theorem acts_acted (r : Readings) (actions : List (Action K)) (e : Engine K) :
    e.Acted r (actions.any Action.isStep) (actions.foldl (Engine.act r) e) := by
  induction actions generalizing e with
  | nil => exact ⟨rfl, rfl, .inl rfl, id⟩
  | cons a actions ih =>
    have hfirst := act_acted r e a
    have hrest := ih (e.act r a)
    rw [List.foldl_cons, List.any_cons]
    refine ⟨hrest.sys.trans hfirst.sys, ?_, ?_, fun h => hrest.pending (hfirst.pending h)⟩
    · rw [hrest.ledger, hfirst.ledger]
    · rcases hrest.executed with h | ⟨hne, hany, hle⟩
      · rw [h]
        refine hfirst.executed.imp id fun ⟨hne, hstep, hle⟩ => ⟨hne, ?_, hle⟩
        rw [hstep, Bool.true_or]
      · refine .inr ⟨fun hnone => hne (hfirst.pending hnone), ?_, hle⟩
        rw [hany, Bool.or_true]

section Record

variable (sha256 : Bytes → Digest)

/-- A report extends the record. -/
theorem recorded_report (h : e.Recorded start) (res : Discipline.Result K) (now : K)
    (r : Readings) : (e.report sha256 res now r).Recorded start := by
  have hrecorded := recorded_applyLeap sha256 h (e.sys.status now) r.apply
  have hfresh := (applyLeap_ledger sha256 e (e.sys.status now) r.apply).2
  unfold Engine.report
  dsimp only
  generalize e.applyLeap sha256 (e.sys.status now) r.apply = x at hrecorded hfresh
  obtain ⟨hledger, hkeep⟩ := syncKernel_ledger x.1 x.2 r.kernel r.accepts
  have hsynced : (x.1.syncKernel x.2 r.kernel r.accepts).Recorded start :=
    hrecorded.raise (congrArg Ledger.published hledger) (congrArg Ledger.utcBound hledger).ge
  split
  · exact (hsynced.publishStatus (hkeep hfresh) x.2 now r.publish).raise rfl le_rfl
  · exact hsynced

/-- So does a status. -/
theorem recorded_publish (h : e.Recorded start) (mono : K) (wall snapshot : ℤ) :
    (e.publish sha256 mono wall snapshot).Recorded start := by
  exact (recorded_applyLeap sha256 (h.processing mono) _ wall).publishStatus
    (applyLeap_ledger sha256 _ _ wall).2 _ _ snapshot

variable [HasSqrt K]

theorem recorded_handle (h : e.Recorded start) (res : Discipline.Result K) (now : K)
    (r : Readings) : (e.handle sha256 res now r).Recorded start := by
  have hcross := recorded_crossLeap (h.processing now) (e.processing now).2 r.cross
  have hledger := (acts_acted r res.actions
    ((e.processing now).1.crossLeap (e.processing now).2 r.cross)).ledger
  have hperform : ((e.processing now).1.perform res (e.processing now).2 r).Recorded start :=
    hcross.raise (congrArg Ledger.published hledger) (congrArg Ledger.utcBound hledger).ge
  unfold Engine.handle
  dsimp only
  split
  · exact recorded_report sha256 hperform res _ r
  · exact hperform

theorem recorded_leapRequest (h : e.Recorded start) (record : Record) (activate : Bool) (mono : K)
    (cross check : ℤ) (mono' mono'' : K) (r : Readings) :
    (e.leapRequest sha256 record activate mono cross check mono' mono'' r).1.Recorded start := by
  have hcross := recorded_crossLeap (h.processing mono) (e.processing mono).2 cross
  have hcheck : (((e.processing mono).1.crossLeap (e.processing mono).2 cross).checkLeap sha256
      record check mono').1.Recorded start :=
    recorded_applyLeap sha256 (hcross.processing mono') _ check
  unfold Engine.leapRequest
  dsimp only
  split
  · exact hcheck
  · split
    · exact hcheck.raise rfl le_rfl
    · split
      · exact hcheck
      · exact hcheck.raise rfl le_rfl

theorem recorded_submit (h : e.Recorded start) (c : Call K) :
    (e.submit sha256 c).1.Recorded start := by
  have hcross : ∀ mono cross,
      ((e.processing mono).1.crossLeap (e.processing mono).2 cross).Recorded start :=
    fun mono cross => recorded_crossLeap (h.processing mono) _ cross
  cases c with
  | tick mono cross r => exact (hcross mono cross).raise rfl le_rfl
  | measurement m mono cross mono' r =>
    have hcrossed := hcross mono cross
    unfold Engine.submit
    dsimp only
    generalize (e.processing mono).1.crossLeap (e.processing mono).2 cross = x at hcrossed
    split
    · exact hcrossed
    · refine hcrossed.raise ?_ (le_of_eq ?_)
      · unfold Engine.noteSourceAlive
        split <;> rfl
      · unfold Engine.noteSourceAlive
        split <;> rfl
  | sourceStopped name poll mono r =>
    unfold Engine.submit
    dsimp only
    split
    · exact h.raise rfl le_rfl
    · exact h
  | sourceRestarting name mono wall snapshot =>
    exact recorded_publish sha256 (e := { e with restarting := name :: e.restarting })
      (h.raise rfl le_rfl) mono wall snapshot
  | leapRequest record activate mono cross check mono' mono'' r =>
    exact recorded_leapRequest sha256 h record activate mono cross check mono' mono'' r

/-- Every call keeps the record. -/
theorem recorded_call {e e' : Engine K} (h : e.Recorded start) {c : Call K}
    (hcall : e.call sha256 c = some e') : e'.Recorded start := by
  have hsubmit := recorded_submit sha256 h c
  unfold Engine.call at hcall
  split at hcall
  · split at hcall
    case h_1 x hx =>
      cases hcall
      rw [hx] at hsubmit
      exact hsubmit
    case h_2 x handling hx =>
      cases hcall
      rw [hx] at hsubmit
      exact recorded_handle sha256 hsubmit handling.result handling.now handling.readings
  · cases hcall

end Record

/-! ## The executed leap -/

/-- The executed leap and the bound of the start lie below the bound. -/
structure Engine.Bounded (e : Engine K) : Prop where
  startup : e.startupUTCbound ≤ e.utcBound
  executed : e.executedLeap ≤ e.utcBound

omit [Field K] [LinearOrder K] in
theorem Engine.Bounded.of_ledger {e e' : Engine K} (h : e.Bounded)
    (hledger : e'.ledger = e.ledger) : e'.Bounded := by
  have hbound : e'.utcBound = e.utcBound := congrArg Ledger.utcBound hledger
  have hstartup : e'.startupUTCbound = e.startupUTCbound := congrArg Ledger.startup hledger
  have hexecuted : e'.executedLeap = e.executedLeap := congrArg Ledger.executed hledger
  refine ⟨?_, ?_⟩
  · rw [hbound, hstartup]
    exact h.startup
  · rw [hbound, hexecuted]
    exact h.executed

theorem bounded_applyLeap (sha256 : Bytes → Digest) (h : e.Bounded) (st : Discipline.Status K)
    (wall : ℤ) : (e.applyLeap sha256 st wall).1.Bounded := by
  have hbound := establish_bound e st wall
  have hestablish : (e.establish st wall).Bounded :=
    ⟨h.startup.trans hbound, h.executed.trans hbound⟩
  exact hestablish.of_ledger (applyLeap_ledger sha256 e st wall).1

/-- Once the discipline has started over, UTC is known unless the wall clock is behind
what had been established. -/
theorem knowsTime_of_restarted [IsStrictOrderedRing K] (h : e.sys.Restarted) (now : K) (wall : ℤ)
    (hstartup : e.startupUTCbound ≤ wall) (hbound : e.utcBound ≤ wall + second) :
    e.knowsTime (e.sys.status now) wall = true := by
  have hguard : |(0 : K)| + |0| < Discipline.ppsGuard := by
    unfold Discipline.ppsGuard
    norm_num
  have hcoarse : (e.sys.status now).state = .settling ∧ (e.sys.status now).systemSource ≠ none ∧
      |(e.sys.status now).offset| + |(e.sys.status now).pending| < Discipline.ppsGuard := by
    unfold Discipline.System.status
    rw [h.state]
    dsimp only
    rw [h.offset, h.pending]
    exact ⟨rfl, h.named, hguard⟩
  unfold Engine.knowsTime
  simp [hcoarse, hstartup, hbound]

/-- A step that went past the armed leap: the wall clock it left is at or past the leap,
so it raises the bound, or the bound is past the wall clock already. -/
theorem bounded_applyLeap_of_restarted [IsStrictOrderedRing K] (sha256 : Bytes → Digest)
    (h : e.sys.Restarted) (hstartup : e.startupUTCbound ≤ e.utcBound) (now : K) {wall : ℤ}
    (hexecuted : e.executedLeap ≤ wall) :
    (e.applyLeap sha256 (e.sys.status now) wall).1.Bounded := by
  have hraised : e.executedLeap ≤ (e.establish (e.sys.status now) wall).utcBound := by
    by_cases hbehind : wall < e.utcBound
    · exact hexecuted.trans (hbehind.le.trans (establish_bound e _ wall))
    · have hknown := knowsTime_of_restarted h now wall (by omega)
        (by unfold second; omega)
      show e.executedLeap ≤ if e.knowsTime (e.sys.status now) wall then max e.utcBound wall
        else e.utcBound
      rw [if_pos hknown]
      exact hexecuted.trans (le_max_right _ _)
  have hestablish : (e.establish (e.sys.status now) wall).Bounded :=
    ⟨hstartup.trans (establish_bound e _ wall), hraised⟩
  exact hestablish.of_ledger (applyLeap_ledger sha256 e _ wall).1

/-- A check that crosses the armed leap raises the bound to it; one that does not leaves
the discipline alone. -/
theorem bounded_crossLeap [HasSqrt K] (h : e.Bounded) (now : K) (wall : ℤ) :
    (e.crossLeap now wall).Bounded ∧
      ((e.crossLeap now wall).pendingLeap = none ∨ (e.crossLeap now wall).sys = e.sys) := by
  unfold Engine.crossLeap
  dsimp only
  split
  case h_1 a _ =>
    split
    · exact ⟨⟨h.startup.trans (le_max_left _ _), le_max_right _ _⟩, .inl rfl⟩
    · exact ⟨h.of_ledger rfl, .inr rfl⟩
  · exact ⟨h.of_ledger rfl, .inr rfl⟩

/-- The bound is in order, or a step went past the armed leap and the discipline has
started over. -/
inductive Engine.Settles (e : Engine K) (r : Readings) (res : Discipline.Result K) : Prop
  | bounded (h : e.Bounded)
  | stepped (startup : e.startupUTCbound ≤ e.utcBound) (executed : e.executedLeap ≤ r.after)
      (steps : steps res = true) (restarted : e.sys.Restarted)

/-- The actions keep the bound in order, or restart the discipline. -/
theorem settles_perform [HasSqrt K] (h : e.Bounded) {res : Discipline.Result K}
    (hstep : steps res = true → e.sys.Restarted) (now : K) (r : Readings) :
    (e.perform res now r).Settles r res := by
  obtain ⟨hcrossed, hsys⟩ := bounded_crossLeap h now r.cross
  have hacted := acts_acted r res.actions (e.crossLeap now r.cross)
  have hbound : (e.perform res now r).utcBound = (e.crossLeap now r.cross).utcBound :=
    congrArg Ledger.utcBound hacted.ledger
  have hstartup : (e.perform res now r).startupUTCbound ≤ (e.perform res now r).utcBound := by
    rw [hbound]
    exact (congrArg Ledger.startup hacted.ledger).trans_le hcrossed.startup
  rcases hacted.executed with hsame | ⟨hne, hany, hle⟩
  · refine .bounded ⟨hstartup, ?_⟩
    rw [hbound]
    exact hsame.trans_le hcrossed.executed
  · refine .stepped hstartup hle hany ?_
    -- the armed leap was still there, so the check before the actions did not cross it
    have hkept := hsys.resolve_left hne
    rw [show (e.perform res now r).sys = (e.crossLeap now r.cross).sys from hacted.sys, hkept]
    exact hstep hany

/-- No published status reports an executed leap past its bound, and an engine that is
alive keeps the bound in order. -/
structure Engine.Honest (e : Engine K) : Prop where
  published : ∀ p ∈ e.published, p.leapExecuted ≤ p.utcBound
  bounded : e.alive = true → e.Bounded

omit [Field K] [LinearOrder K] in
theorem Engine.Bounded.publishStatus (h : e.Bounded)
    (hpublished : ∀ p ∈ e.published, p.leapExecuted ≤ p.utcBound) (st : Discipline.Status K)
    (now : K) (wall : ℤ) (alive : Bool) :
    ({ e.publishStatus st now wall with alive := alive } : Engine K).Honest where
  published := List.forall_mem_append.mpr ⟨hpublished, List.forall_mem_singleton.mpr h.executed⟩
  bounded := fun _ => ⟨h.startup, h.executed⟩

section Executed

variable (sha256 : Bytes → Digest)

/-- A status published at once: `publish` makes no step. -/
theorem honest_publish (h : e.Bounded) (hpublished : ∀ p ∈ e.published, p.leapExecuted ≤ p.utcBound)
    (mono : K) (wall snapshot : ℤ) :
    (e.publish sha256 mono wall snapshot).Bounded ∧
      ∀ p ∈ (e.publish sha256 mono wall snapshot).published, p.leapExecuted ≤ p.utcBound := by
  have hprocessing : (e.processing mono).1.Bounded := h.of_ledger rfl
  have happly := bounded_applyLeap sha256 hprocessing
    ((e.processing mono).1.sys.status (e.processing mono).2) wall
  have hkept := applyLeap_published sha256 (e.processing mono).1
    ((e.processing mono).1.sys.status (e.processing mono).2) wall
  unfold Engine.publish
  dsimp only
  generalize (e.processing mono).1.applyLeap sha256
    ((e.processing mono).1.sys.status (e.processing mono).2) wall = x at happly hkept
  have hx : ∀ p ∈ x.1.published, p.leapExecuted ≤ p.utcBound := by
    rw [hkept]
    exact hpublished
  exact ⟨⟨happly.startup, happly.executed⟩,
    (happly.publishStatus hx x.2 (e.processing mono).2 snapshot true).published⟩

variable [HasSqrt K]

/-- A request publishes nothing itself and hands over a result without actions. -/
theorem leapRequest_spec (h : e.Bounded) (record : Record) (activate : Bool) (mono : K)
    (cross check : ℤ) (mono' mono'' : K) (r : Readings) :
    (e.leapRequest sha256 record activate mono cross check mono' mono'' r).1.Bounded ∧
    (e.leapRequest sha256 record activate mono cross check mono' mono'' r).1.published =
      e.published ∧
    ∀ x ∈ (e.leapRequest sha256 record activate mono cross check mono' mono'' r).2,
      steps x.result = false := by
  have hcrossed := (bounded_crossLeap (e := (e.processing mono).1) (h.of_ledger rfl)
    (e.processing mono).2 cross).1
  have hkept := crossLeap_published (e.processing mono).1 (e.processing mono).2 cross
  unfold Engine.leapRequest
  dsimp only
  generalize (e.processing mono).1.crossLeap (e.processing mono).2 cross = x at hcrossed hkept
  have hcheck : (x.checkLeap sha256 record check mono').1.Bounded :=
    bounded_applyLeap sha256 (e := (x.processing mono').1) (hcrossed.of_ledger rfl) _ check
  have hsame : (x.checkLeap sha256 record check mono').1.published = e.published :=
    (applyLeap_published sha256 (x.processing mono').1 _ check).trans hkept
  generalize x.checkLeap sha256 record check mono' = y at hcheck hsame
  split
  · exact ⟨hcheck, hsame, fun z hz => absurd hz (Option.not_mem_none z)⟩
  · split
    · exact ⟨⟨hcheck.startup, hcheck.executed⟩, hsame,
        fun z hz => absurd hz (Option.not_mem_none z)⟩
    · split
      · exact ⟨hcheck, hsame, fun z hz => absurd hz (Option.not_mem_none z)⟩
      · refine ⟨⟨hcheck.startup, hcheck.executed⟩, hsame, fun z hz => ?_⟩
        rw [← Option.mem_some_iff.mp hz]
        rfl

variable [IsStrictOrderedRing K]

omit [HasSqrt K] in
/-- The report of a settled engine is honest. -/
theorem honest_report {res : Discipline.Result K} {r : Readings} (h : e.Settles r res)
    (hordered : r.Ordered (steps res)) (hpublished : ∀ p ∈ e.published, p.leapExecuted ≤ p.utcBound)
    (now : K) :
    (e.report sha256 res now r).Honest := by
  have happly : (e.applyLeap sha256 (e.sys.status now) r.apply).1.Bounded := by
    cases h with
    | bounded h => exact bounded_applyLeap sha256 h _ r.apply
    | stepped startup executed steps restarted =>
      have hafter := hordered.2.2.1
      rw [steps, if_pos rfl] at hafter
      exact bounded_applyLeap_of_restarted sha256 restarted startup now (executed.trans hafter)
  have hkept := applyLeap_published sha256 e (e.sys.status now) r.apply
  unfold Engine.report
  dsimp only
  generalize e.applyLeap sha256 (e.sys.status now) r.apply = x at happly hkept
  obtain ⟨hledger, -⟩ := syncKernel_ledger x.1 x.2 r.kernel r.accepts
  have hsynced := happly.of_ledger hledger
  have hsame : (x.1.syncKernel x.2 r.kernel r.accepts).published = e.published :=
    (congrArg Ledger.published hledger).trans hkept
  rw [← hsame] at hpublished
  split
  · exact hsynced.publishStatus hpublished x.2 now r.publish _
  · exact ⟨hpublished, fun _ => hsynced⟩

theorem honest_handle (h : e.Bounded) (hpublished : ∀ p ∈ e.published, p.leapExecuted ≤ p.utcBound)
    {res : Discipline.Result K} (hstep : steps res = true → e.sys.Restarted) (now : K)
    {r : Readings} (hordered : r.Ordered (steps res)) : (e.handle sha256 res now r).Honest := by
  have hprocessing : (e.processing now).1.Bounded := h.of_ledger rfl
  have hsettles := settles_perform hprocessing hstep (e.processing now).2 r
  have hkept : ((e.processing now).1.perform res (e.processing now).2 r).published =
      e.published := by
    have hledger := (acts_acted r res.actions
      ((e.processing now).1.crossLeap (e.processing now).2 r.cross)).ledger
    refine (congrArg Ledger.published hledger).trans ?_
    show ((e.processing now).1.crossLeap (e.processing now).2 r.cross).published = e.published
    exact crossLeap_published _ _ _
  rw [← hkept] at hpublished
  unfold Engine.handle
  dsimp only
  split
  · exact honest_report sha256 hsettles hordered hpublished _
  case isFalse hdead => exact ⟨hpublished, fun halive => absurd halive hdead⟩

/-- A call that asks for a step hands over a system that has started over. -/
theorem submit_restarted (h : e.Bounded) (c : Call K) :
    ∀ x ∈ (e.submit sha256 c).2, steps x.result = true → (e.submit sha256 c).1.sys.Restarted := by
  have hnone : ∀ y : Engine K, ∀ x ∈ (none : Option (Handling K)),
      steps x.result = true → y.sys.Restarted := fun _ x hx => absurd hx (Option.not_mem_none x)
  cases c with
  | tick mono cross r =>
    unfold Engine.submit
    dsimp only
    generalize (e.processing mono).1.crossLeap (e.processing mono).2 cross = x
    intro z hz hsteps
    obtain rfl := Option.mem_some_iff.mp hz
    exact Discipline.tick_restarted hsteps
  | measurement m mono cross mono' r =>
    unfold Engine.submit
    dsimp only
    generalize (e.processing mono).1.crossLeap (e.processing mono).2 cross = x
    split
    · exact hnone x
    · generalize (x.processing mono').1.noteSourceAlive m.source = y
      intro z hz hsteps
      obtain rfl := Option.mem_some_iff.mp hz
      exact Discipline.update_restarted hsteps
  | sourceStopped name poll mono r =>
    unfold Engine.submit
    dsimp only
    split
    · intro z hz hsteps
      obtain rfl := Option.mem_some_iff.mp hz
      exact Discipline.update_restarted hsteps
    · exact hnone e
  | sourceRestarting name mono wall snapshot => exact hnone _
  | leapRequest record activate mono cross check mono' mono'' r =>
    intro z hz hsteps
    rw [(leapRequest_spec sha256 h record activate mono cross check mono' mono'' r).2.2 z
      hz] at hsteps
    cases hsteps

omit [IsStrictOrderedRing K] in
/-- The part of a call before `handle` keeps the bound in order. -/
theorem honest_submit (h : e.Bounded) (hpublished : ∀ p ∈ e.published, p.leapExecuted ≤ p.utcBound)
    (c : Call K) :
    (e.submit sha256 c).1.Bounded ∧
      ∀ p ∈ (e.submit sha256 c).1.published, p.leapExecuted ≤ p.utcBound := by
  have hcross : ∀ mono cross,
      ((e.processing mono).1.crossLeap (e.processing mono).2 cross).Bounded ∧
      ((e.processing mono).1.crossLeap (e.processing mono).2 cross).published = e.published :=
    fun mono cross => ⟨(bounded_crossLeap (e := (e.processing mono).1) (h.of_ledger rfl) _ cross).1,
      crossLeap_published _ _ _⟩
  cases c with
  | tick mono cross r =>
    obtain ⟨hbounded, hkept⟩ := hcross mono cross
    rw [← hkept] at hpublished
    exact ⟨hbounded.of_ledger rfl, hpublished⟩
  | measurement m mono cross mono' r =>
    obtain ⟨hbounded, hkept⟩ := hcross mono cross
    rw [← hkept] at hpublished
    unfold Engine.submit Engine.noteSourceAlive
    dsimp only
    generalize (e.processing mono).1.crossLeap (e.processing mono).2 cross =
      x at hbounded hpublished
    split
    · exact ⟨hbounded, hpublished⟩
    · split
      · exact ⟨hbounded.of_ledger rfl, hpublished⟩
      · exact ⟨hbounded.of_ledger rfl, hpublished⟩
  | sourceStopped name poll mono r =>
    unfold Engine.submit
    dsimp only
    split
    · exact ⟨h.of_ledger rfl, hpublished⟩
    · exact ⟨h, hpublished⟩
  | sourceRestarting name mono wall snapshot =>
    exact honest_publish sha256 (e := { e with restarting := name :: e.restarting })
      (h.of_ledger rfl) hpublished mono wall snapshot
  | leapRequest record activate mono cross check mono' mono'' r =>
    obtain ⟨hbounded, hkept, -⟩ :=
      leapRequest_spec sha256 h record activate mono cross check mono' mono'' r
    rw [← hkept] at hpublished
    exact ⟨hbounded, hpublished⟩

/-- Every call keeps the engine honest. -/
theorem honest_call {e e' : Engine K} (h : e.Honest) {c : Call K} (hordered : e.Ordered sha256 c)
    (hcall : e.call sha256 c = some e') : e'.Honest := by
  unfold Engine.call at hcall
  split at hcall
  case isTrue halive =>
    obtain ⟨hbounded, hpublished⟩ := honest_submit sha256 (h.bounded halive) h.published c
    have hrestarted := submit_restarted sha256 (h.bounded halive) c
    have hreadings := hordered.2.2
    split at hcall
    case h_1 x hx =>
      cases hcall
      rw [hx] at hbounded hpublished
      exact ⟨hpublished, fun _ => hbounded⟩
    case h_2 x handling hx =>
      cases hcall
      rw [hx] at hbounded hpublished hrestarted hreadings
      exact honest_handle sha256 hbounded hpublished (hrestarted handling rfl) handling.now
        (hreadings handling rfl).2
  case isFalse => cases hcall

end Executed

/-! ## Runs -/

/-- **Expiry survives a setback.**  In a run whose wall clock does not go back inside a
call the published bounds never decrease and no executed leap lies past the bound of its
status.  Once a published bound has reached the expiry of an object, no later status
authorises that object, and none does if the state the engine started from had reached
it. -/
theorem leap_expiry_survives_setback [HasSqrt K] [IsStrictOrderedRing K] (sha256 : Bytes → Digest)
    (cfg : EngineConfig K) (state : Leap.State) (hstate : state.executed ≤ state.utcBound)
    (freq : K)
    (known : Bool) (started : ℤ) (mono : K) (wall snapshot : ℤ) (calls : List (Call K))
    (e : Engine K) (hrun : Runs.run (Engine.call sha256)
      (Engine.new sha256 cfg state freq known started mono wall snapshot) calls = some e)
    (hordered : Runs.Along (Engine.call sha256) (fun e c => e.Ordered sha256 c)
      (Engine.new sha256 cfg state freq known started mono wall snapshot) calls) :
    e.published.Pairwise (fun p q => p.utcBound ≤ q.utcBound) ∧
    (∀ p ∈ e.published, p.leapExecuted ≤ p.utcBound) ∧
    e.published.Pairwise (fun p q =>
      ∀ o : Object, o.table.expiry ≤ p.utcBound → ¬ q.Authorises o) ∧
    ∀ p ∈ e.published, ∀ o : Object, o.table.expiry ≤ state.utcBound → ¬ p.Authorises o := by
  have hinit : (Engine.init cfg state freq known started mono).Recorded state.utcBound :=
    ⟨le_rfl, .nil, fun p hp => absurd hp List.not_mem_nil, fun p hp => absurd hp List.not_mem_nil⟩
  have hbounded : (Engine.init cfg state freq known started mono).Bounded := ⟨le_rfl, hstate⟩
  have hnew := honest_publish sha256 hbounded (fun p hp => absurd hp List.not_mem_nil) mono wall
    snapshot
  have hrecorded : e.Recorded state.utcBound :=
    Runs.run_invariant (I := Engine.Recorded state.utcBound)
      (fun _ _ _ h _ hcall => recorded_call sha256 h hcall)
      (recorded_publish sha256 hinit mono wall snapshot) hordered hrun
  have hhonest : e.Honest :=
    Runs.run_invariant (I := Engine.Honest) (fun _ _ _ h hc hcall => honest_call sha256 h hc hcall)
      ⟨hnew.2, fun _ => hnew.1⟩ hordered hrun
  refine ⟨hrecorded.ordered, hhonest.published, ?_, fun p hp o ho hauth => ?_⟩
  · refine List.Pairwise.imp_of_mem (fun {p q} _ hq hpq o ho hauth => ?_) hrecorded.ordered
    have hlt := hrecorded.current q hq o hauth
    omega
  · have hlt := hrecorded.current p hp o hauth
    have hle := (hrecorded.range p hp).1
    omega

section Samples

open Leap (firstBytes list1972)

/-- A daemon that serves under the list of 1972 until it expires; then the wall clock is
set back by an hour. -/
def expiringRun : List (Call ℚ) :=
  let expiry := list1972.table.expiry
  [receive 1 .none (expiry - 70 * second), receive 65 .none (expiry - 6 * second),
    .tick 72 (expiry + second) (steady (expiry + second)),
    .tick 73 (expiry - 3600 * second) (steady (expiry - 3600 * second))]

/-- The list was exported before it expired; the status after the setback, at a time when
the list was in force, does not authorise it. -/
theorem leap_expiry_survives_setback_1972 :
    ∃ e, Runs.run (Engine.call firstBytes) (daemon state1972 (list1972.table.expiry - 100 * second))
        expiringRun = some e ∧
      (∃ p ∈ e.published.take 4, p.Authorises list1972) ∧
      (e.published.drop 4).map (·.now) = [list1972.table.expiry - 3600 * second] ∧
      ∀ q ∈ e.published.drop 4, ¬ q.Authorises list1972 := by
  have h : (Runs.run (Engine.call firstBytes)
      (daemon state1972 (list1972.table.expiry - 100 * second)) expiringRun).map
        (fun e => ((e.published.take 4).any fun p => decide (p.leapObject = some list1972),
          (e.published.take 4).any fun p => decide (list1972.table.expiry ≤ p.utcBound),
          (e.published.drop 4).map (·.now)))
      = some (true, true, [list1972.table.expiry - 3600 * second]) := by decide +kernel
  obtain ⟨e, he, heq⟩ := Option.map_eq_some_iff.mp h
  obtain ⟨hexported, heq⟩ := Prod.mk.inj heq
  obtain ⟨hexpired, hnow⟩ := Prod.mk.inj heq
  obtain ⟨p, hp, hobject⟩ := List.any_eq_true.mp hexported
  obtain ⟨p', hp', hbound⟩ := List.any_eq_true.mp hexpired
  obtain ⟨-, -, hlater, -⟩ :=
    leap_expiry_survives_setback firstBytes _ state1972 (by decide +kernel)
    _ _ _ _ _ _ expiringRun e he (by decide +kernel)
  rw [← List.take_append_drop 4 e.published, List.pairwise_append] at hlater
  exact ⟨e, he, ⟨p, hp, .inr (of_decide_eq_true hobject)⟩, hnow,
    fun q hq => hlater.2.2 p' hp' q hq list1972 (of_decide_eq_true hbound)⟩

end Samples

end Carillon
