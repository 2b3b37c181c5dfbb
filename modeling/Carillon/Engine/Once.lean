/-
# A leap is executed once

The boundaries a run of the engine executes increase strictly, and nothing at or
below an executed boundary is armed again: this holds for all readings of the clock.

That an armed boundary is never left behind, with the wall clock past it, needs every
arming to lie ahead of the last wall time that a check or a step saw.  Where the wall
clock does not go back inside a call, only one call can break this: the announcement
that a source restarts publishes, and so may arm, without a crossing check before it.
If the clock was set back since the last check, the boundary it arms may lie behind
that check, and no later check crosses it.
-/
import Carillon.Engine.Latch
import Carillon.Discipline.Settling

namespace Carillon

open Discipline (HasSqrt Measurement Action)
open Leap (Digest Object Record Table)

/-! ## Executed boundaries increase -/

/-- The boundary a note says was executed. -/
def Note.executes : Note → Option ℤ
  | .crossed b | .passed b => some b
  | .armed _ _ _ | .saw _ _ _ | .activated _ _ => none

/-- The boundary a note says was armed or executed. -/
def Note.names : Note → Option ℤ
  | .armed a _ _ => some a.boundary
  | .crossed b | .passed b => some b
  | .saw _ _ _ | .activated _ _ => none

/-- A boundary executed by the first note lies before one armed or executed by the
second. -/
def Note.Before (m n : Note) : Prop :=
  ∀ b ∈ m.executes, ∀ c ∈ n.names, b < c

/-- Nothing is executed or armed twice, above the boundary `start` executed in an
earlier run. -/
structure Latch.Once (start : ℤ) (l : Latch) : Prop where
  order : l.log.Pairwise Note.Before
  start_le : start ≤ l.executed
  executed : ∀ n ∈ l.log, ∀ b ∈ n.executes, start < b ∧ b ≤ l.executed
  pending : ∀ a ∈ l.pending, l.executed < a.boundary

/-- Adding a note that comes after all boundaries executed so far. -/
theorem Latch.Once.add {start : ℤ} {l : Latch} (h : l.Once start) {n : Note}
    (hn : ∀ c ∈ n.names, l.executed < c) : (l.log ++ [n]).Pairwise Note.Before := by
  rw [List.pairwise_append]
  refine ⟨h.order, List.pairwise_singleton _ _, fun m hm n' hn' b hb c hc => ?_⟩
  rw [List.mem_singleton] at hn'
  subst hn'
  exact (h.executed m hm b hb).2.trans_lt (hn c hc)

/-- A note that executes nothing. -/
theorem Latch.Once.note {start : ℤ} {l : Latch} (h : l.Once start) {n : Note}
    (hexecutes : n.executes = none) (hn : ∀ c ∈ n.names, l.executed < c) :
    Latch.Once start { l with log := l.log ++ [n] } := by
  refine ⟨h.add hn, h.start_le, List.forall_mem_append.mpr ⟨h.executed, ?_⟩, h.pending⟩
  rw [List.forall_mem_singleton, hexecutes]
  exact fun b hb => absurd hb (Option.not_mem_none b)

theorem Latch.Once.saw {start : ℤ} {l : Latch} (h : l.Once start) (wall : ℤ)
    (before : Option Armed) : (l.saw wall before).Once start := by
  have hnote := h.note (n := .saw wall before l.pending) rfl fun c hc =>
    absurd hc (Option.not_mem_none c)
  exact ⟨hnote.order, hnote.start_le, hnote.executed, hnote.pending⟩

theorem once_step {start : ℤ} {l l' : Latch} (hs : Latch.Step l l') (h : l.Once start) :
    l'.Once start := by
  cases hs with
  | @execute a wall n armed note =>
    have hlt : l.executed < a.boundary := h.pending a armed
    have hexecutes : n.executes = some a.boundary := by rcases note with rfl | rfl <;> rfl
    have hnames : n.names = some a.boundary := by rcases note with rfl | rfl <;> rfl
    refine Latch.Once.saw ⟨h.add fun c hc => ?_, h.start_le.trans hlt.le, ?_, ?_⟩ wall (some a)
    · rw [hnames] at hc
      rw [← Option.some.inj hc]
      exact hlt
    · refine List.forall_mem_append.mpr ⟨fun m hm b hb => ?_,
        List.forall_mem_singleton.mpr fun b hb => ?_⟩
      · obtain ⟨hstart, hle⟩ := h.executed m hm b hb
        exact ⟨hstart, hle.trans hlt.le⟩
      · rw [hexecutes] at hb
        rw [← Option.some.inj hb]
        exact ⟨h.start_le.trans_lt hlt, le_rfl⟩
    · exact fun b hb => absurd hb (Option.not_mem_none b)
  | look wall ahead => exact h.saw wall l.pending
  | arm a idle fresh next grounded =>
    have hnote := h.note (n := .armed a l.lastWall l.active) rfl fun c hc => by
      rw [← Option.some.inj hc]
      exact fresh
    refine ⟨hnote.order, hnote.start_le, hnote.executed, fun b hb => ?_⟩
    rw [← Option.some.inj hb]
    exact fresh
  | activate o kept =>
    have hnote := h.note (n := .activated o l.pending) rfl fun c hc =>
      absurd hc (Option.not_mem_none c)
    exact ⟨hnote.order, hnote.start_le, hnote.executed, hnote.pending⟩

/-- The notes' order makes the executed boundaries increase. -/
theorem executes_increasing {log : List Note} (h : log.Pairwise Note.Before) :
    (log.filterMap Note.executes).Pairwise (· < ·) := by
  rw [List.pairwise_filterMap]
  refine h.imp fun {m n} hmn b hb c hc => hmn b hb c ?_
  cases n with
  | crossed _ => exact hc
  | passed _ => exact hc
  | armed _ _ _ => exact absurd hc (Option.not_mem_none c)
  | saw _ _ _ => exact absurd hc (Option.not_mem_none c)
  | activated _ _ => exact absurd hc (Option.not_mem_none c)

/-! ## Armed boundaries are not left behind -/

/-- The arming lies ahead of the last wall time seen, and the wall times seen are not
the zero time. -/
def Note.Ahead : Note → Prop
  | .armed a last _ => last < a.boundary
  | .saw wall _ _ => wall ≠ 0
  | .crossed _ | .passed _ | .activated _ _ => True

/-- A check or a step that saw the wall clock at or past the armed boundary left
nothing armed. -/
def Note.Disarms : Note → Prop
  | .saw wall (some a) after => a.boundary ≤ wall → after = none
  | .saw _ none _ | .armed _ _ _ | .crossed _ | .passed _ | .activated _ _ => True

/-- The wall clock was last seen before the armed boundary. -/
structure Latch.Watchful (l : Latch) : Prop where
  lastWall : l.lastWall ≠ 0
  pending : ∀ a ∈ l.pending, l.lastWall < a.boundary
  disarms : ∀ n ∈ l.log, n.Disarms

/-- As long as the armings lie ahead, the latch stays watchful. -/
theorem watchful_step {l l' : Latch} (hs : Latch.Step l l')
    (h : (∀ n ∈ l.log, n.Ahead) → l.Watchful) : (∀ n ∈ l'.log, n.Ahead) → l'.Watchful := by
  intro hahead
  cases hs with
  | @execute a wall n armed note =>
    obtain ⟨hlog, hwall⟩ := List.forall_mem_append.mp hahead
    obtain ⟨hlog, -⟩ := List.forall_mem_append.mp hlog
    rw [List.forall_mem_singleton] at hwall
    refine ⟨hwall, fun b hb => absurd hb (Option.not_mem_none b), ?_⟩
    refine List.forall_mem_append.mpr ⟨List.forall_mem_append.mpr ⟨(h hlog).disarms, ?_⟩, ?_⟩
    · rw [List.forall_mem_singleton]
      rcases note with rfl | rfl <;> trivial
    · rw [List.forall_mem_singleton]
      exact fun _ => rfl
  | look wall ahead =>
    obtain ⟨hlog, hwall⟩ := List.forall_mem_append.mp hahead
    rw [List.forall_mem_singleton] at hwall
    have hl := h hlog
    have hpending : ∀ a ∈ l.pending, wall < a.boundary :=
      fun a ha => ahead a ha hl.lastWall (hl.pending a ha)
    refine ⟨hwall, hpending, List.forall_mem_append.mpr ⟨hl.disarms, ?_⟩⟩
    rw [List.forall_mem_singleton]
    cases hp : l.pending with
    | none => trivial
    | some a => exact fun hle => absurd (hpending a hp) (not_lt.mpr hle)
  | arm a idle fresh next grounded =>
    obtain ⟨hlog, harmed⟩ := List.forall_mem_append.mp hahead
    rw [List.forall_mem_singleton] at harmed
    have hl := h hlog
    refine ⟨hl.lastWall, fun b hb => ?_, List.forall_mem_append.mpr ⟨hl.disarms, ?_⟩⟩
    · rw [← Option.some.inj hb]
      exact harmed
    · rw [List.forall_mem_singleton]
      trivial
  | activate o kept =>
    obtain ⟨hlog, -⟩ := List.forall_mem_append.mp hahead
    have hl := h hlog
    refine ⟨hl.lastWall, hl.pending, List.forall_mem_append.mpr ⟨hl.disarms, ?_⟩⟩
    rw [List.forall_mem_singleton]
    trivial

/-! ## What a run writes into the log -/

variable {K : Type}

/-- Every note so far is of a kind. -/
def Engine.Logs (J : Note → Prop) (e : Engine K) : Prop := ∀ n ∈ e.log, J n

/-- A kind that an execution and an activation are of, whatever they are. -/
structure Note.Free (J : Note → Prop) : Prop where
  crossed : ∀ b, J (.crossed b)
  passed : ∀ b, J (.passed b)
  activated : ∀ o p, J (.activated o p)

variable {J : Note → Prop}

theorem Engine.Logs.append {e e' : Engine K} (h : e.Logs J) {n : Note} (hn : J n)
    (hlog : e'.log = e.log ++ [n]) : e'.Logs J := by
  unfold Engine.Logs
  rw [hlog]
  exact List.forall_mem_append.mpr ⟨h, List.forall_mem_singleton.mpr hn⟩

variable {e : Engine K}

theorem logs_stepped (hJ : Note.Free J) (h : e.Logs J) {after : ℤ}
    (hafter : ∀ b a, J (.saw after b a)) : (e.stepped after).Logs J := by
  have hpass : ∀ a, (e.pass a).Logs J := fun a => h.append (hJ.passed _) rfl
  unfold Engine.stepped
  dsimp only
  split
  · split
    · exact (hpass _).append (hafter _ _) rfl
    · exact h.append (hafter _ _) rfl
  · exact h.append (hafter _ _) rfl

variable [Field K] [LinearOrder K]

/-- The survivors decide at a wall time and vote for a leap: no table is required, and none
is in force. -/
def Engine.Swayed (sha256 : Bytes → Digest) (e : Engine K) (vote : Ntp.Leap) (wall : ℤ) : Prop :=
  (vote = .insert ∨ vote = .delete) ∧ e.cfg.leapRequired = false ∧
    (e.table sha256 (max wall e.utcBound)).isOk = false

variable {wall : ℤ}

omit [Field K] [LinearOrder K] in
/-- Where the survivors are the authority, no table is, and their vote stands. -/
theorem judge_sources (sha256 : Bytes → Digest) (e : Engine K) (st : Discipline.Status K)
    (wall : ℤ) (hready : (e.judge sha256 st wall).1.leapReady = true)
    (hsources : (e.judge sha256 st wall).1.leapAuthority = .sources) :
    (e.judge sha256 st wall).2 = st ∧ e.cfg.leapRequired = false ∧
      (e.table sha256 (max wall e.utcBound)).isOk = false := by
  unfold Engine.judge at hready hsources ⊢
  dsimp only at hready hsources ⊢
  split at hready
  case h_1 t ht =>
    -- a table is the authority of its provider, or of the configuration
    rw [ht] at hsources
    dsimp only at hsources
    split at hsources
    · dsimp only at hsources
      cases hactive : e.activeLeap with
      | none =>
        rw [hactive] at hsources
        cases hsources
      | some r =>
        rw [hactive] at hsources
        cases hsources
    · cases hsources
  case h_2 reason ht =>
    rw [ht]
    split at hready
    case isTrue hvote =>
      rw [if_pos hvote]
      refine ⟨rfl, ?_, rfl⟩
      simp only [Bool.and_eq_true, Bool.not_eq_true'] at hvote
      exact hvote.1.1
    case isFalse => cases hready

/-- What `applyLeap` adds to the log is at most one arming, of the next midnight; it is the
survivors' only where they sway the engine. -/
theorem applyLeap_log (sha256 : Bytes → Digest) (e : Engine K) (st : Discipline.Status K)
    (wall : ℤ) :
    (e.applyLeap sha256 st wall).1.log = e.log ∨
      ∃ (a : Armed) (o : Option Object),
        (e.applyLeap sha256 st wall).1.log = e.log ++ [.armed a e.lastLeapWall o] ∧
        a.boundary = nextMidnight wall ∧ a.wall = wall ∧
        (a.authority = .sources → e.Swayed sha256 st.leap wall) := by
  have hlatch := (judge_spec sha256 (e.establish st wall) st wall).1
  have hsources := judge_sources sha256 (e.establish st wall) st wall
  -- what is established at the reading does not move the instant a table is judged at
  have hbound : max wall (e.establish st wall).utcBound = max wall e.utcBound := by
    unfold Engine.establish
    dsimp only
    split
    · rw [max_comm e.utcBound, ← max_assoc, max_self]
    · rfl
  rw [hbound] at hsources
  unfold Engine.applyLeap Engine.announce
  dsimp only
  generalize (e.establish st wall).judge sha256 st wall = j at hlatch hsources
  have hlog : j.1.log = e.log := congrArg Latch.log hlatch
  have hlast : j.1.lastLeapWall = e.lastLeapWall := congrArg Latch.lastWall hlatch
  split
  case isTrue hready =>
    split
    · unfold Engine.notePendingLeap
      dsimp only
      split
      case isTrue hc =>
        refine .inr ⟨_, _, by rw [hlog, hlast], rfl, rfl, fun hauthority => ?_⟩
        obtain ⟨hst, hrequired, htable⟩ := hsources hready hauthority
        rw [hst] at hc
        exact ⟨hc.1, hrequired, htable⟩
      · exact .inl hlog
    · exact .inl hlog
  case isFalse =>
    split
    · exact .inl hlog
    · exact .inl hlog

/-- The authority decides: at most an arming is logged. -/
theorem logs_applyLeap (sha256 : Bytes → Digest) (h : e.Logs J)
    (st : Discipline.Status K)
    (harmed : ∀ a o, a.boundary = nextMidnight wall → a.wall = wall →
      (a.authority = .sources → e.Swayed sha256 st.leap wall) → J (.armed a e.lastLeapWall o)) :
    (e.applyLeap sha256 st wall).1.Logs J := by
  rcases applyLeap_log sha256 e st wall with hlog | ⟨a, o, hlog, hnext, hwall, hsources⟩
  · exact fun n hn => h n (hlog ▸ hn)
  · exact h.append (harmed a o hnext hwall hsources) hlog

theorem logs_crossLeap [HasSqrt K] (hJ : Note.Free J) (h : e.Logs J) {now : K}
    (hwall : ∀ b a, J (.saw wall b a)) : (e.crossLeap now wall).Logs J := by
  have hexecute : ∀ a, (e.execute a now).Logs J := fun a => h.append (hJ.crossed _) rfl
  unfold Engine.crossLeap
  dsimp only
  split
  · split
    · exact (hexecute _).append (hwall _ _) rfl
    · exact h.append (hwall _ _) rfl
  · exact h.append (hwall _ _) rfl

variable {r : Readings}

/-- An action of an engine that survives it. -/
theorem act_spec {a : Action K} (halive : (e.act r a).alive = true) :
    e.alive = true ∧
      ((∃ v, a = .step v) ∧ e.act r a = { e with gen := e.gen + 2, alive := true }.stepped r.after ∨
        (¬ ∃ v, a = .step v) ∧ e.act r a = { e with alive := true }) := by
  unfold Engine.act at halive ⊢
  split at halive
  case isFalse hdead => exact absurd halive hdead
  case isTrue hlive =>
    refine ⟨hlive, ?_⟩
    rw [if_pos hlive]
    cases a with
    | setFrequency ppm =>
      refine .inr ⟨(nomatch ·), ?_⟩
      dsimp only at halive ⊢
      rw [halive]
    | step v =>
      refine .inl ⟨⟨v, rfl⟩, ?_⟩
      dsimp only at halive ⊢
      split at halive
      · exact absurd halive Bool.false_ne_true
      case isFalse hsmall =>
        rw [if_neg hsmall]
        split at halive
        case isTrue hact => rw [if_pos hact, hact]
        case isFalse hact => exact absurd halive hact
    | resetFilters =>
      refine .inr ⟨(nomatch ·), ?_⟩
      dsimp only
      rw [← hlive]

theorem logs_act (hJ : Note.Free J) (hafter : ∀ b a, J (.saw r.after b a)) (h : e.Logs J)
    (a : Action K) :
    (e.act r a).Logs J := by
  unfold Engine.act
  split
  · cases a with
    | setFrequency ppm => exact h
    | step v =>
      dsimp only
      split
      · exact h
      · split
        · exact logs_stepped (e := { e with gen := e.gen + 2, alive := r.actuates }) hJ h hafter
        · exact h
    | resetFilters => exact h
  · exact h

theorem logs_acts (hJ : Note.Free J) (hafter : ∀ b a, J (.saw r.after b a))
    (actions : List (Action K)) (h : e.Logs J) :
    (actions.foldl (Engine.act r) e).Logs J := by
  induction actions generalizing e with
  | nil => exact h
  | cons a actions ih => exact ih (logs_act hJ hafter h a)

/-- After the actions the wall clock was last seen by the step, if there was one. -/
theorem lastWall_acts (actions : List (Action K))
    (halive : (actions.foldl (Engine.act r) e).alive = true) :
    e.alive = true ∧ (actions.foldl (Engine.act r) e).lastLeapWall =
      if actions.any Action.isStep then r.after else e.lastLeapWall := by
  induction actions generalizing e with
  | nil => exact ⟨halive, rfl⟩
  | cons a actions ih =>
    obtain ⟨hact, hlast⟩ := ih halive
    obtain ⟨hlive, hcases⟩ := act_spec hact
    refine ⟨hlive, ?_⟩
    rw [List.foldl_cons, hlast, List.any_cons]
    rcases hcases with ⟨⟨v, rfl⟩, heq⟩ | ⟨hno, heq⟩
    · rw [heq]
      exact ite_self _
    · rw [heq]
      cases a with
      | setFrequency ppm => rfl
      | step v => exact absurd ⟨v, rfl⟩ hno
      | resetFilters => rfl

variable [HasSqrt K] (sha256 : Bytes → Digest)

/-- `handle` logs what its crossing check and its actions see, and what the authority arms. -/
theorem logs_handle (hJ : Note.Free J) (h : e.Logs J)
    {res : Discipline.Result K} {now : K} (hcross : ∀ b a, J (.saw r.cross b a))
    (hafter : ∀ b a, J (.saw r.after b a))
    (happly : ∀ x, x = (e.processing now).1.perform res (e.processing now).2 r → x.alive = true →
      x.Logs J →
      (x.applyLeap sha256 (x.sys.status (e.processing now).2) r.apply).1.Logs J) :
    (e.handle sha256 res now r).Logs J := by
  have hperform : ((e.processing now).1.perform res (e.processing now).2 r).Logs J :=
    logs_acts hJ hafter res.actions (logs_crossLeap (e := (e.processing now).1) hJ h hcross)
  unfold Engine.handle
  dsimp only
  generalize hx : (e.processing now).1.perform res (e.processing now).2 r = x at hperform
  split
  case isTrue halive =>
    have hlogs := happly x hx.symm halive hperform
    unfold Engine.report
    dsimp only
    generalize x.applyLeap sha256 (x.sys.status (e.processing now).2) r.apply = y at hlogs
    have hkernel : (y.1.syncKernel y.2 r.kernel r.accepts).Logs J := by
      have hlog : (y.1.syncKernel y.2 r.kernel r.accepts).log = y.1.log :=
        congrArg Latch.log (latch_syncKernel y.1 y.2 r.kernel r.accepts)
      exact fun n hn => hlogs n (hlog ▸ hn)
    split
    · exact hkernel
    · exact hkernel
  case isFalse => exact hperform

theorem logs_leapRequest (hJ : Note.Free J) {record : Record}
    {activate : Bool} {mono : K} {cross check : ℤ} {mono' mono'' : K}
    (hcheck : (((e.processing mono).1.crossLeap (e.processing mono).2 cross).checkLeap sha256 record
      check mono').1.Logs J) :
    (e.leapRequest sha256 record activate mono cross check mono' mono'' r).1.Logs J := by
  unfold Engine.leapRequest
  dsimp only
  split
  · exact hcheck
  · split
    · exact hcheck
    · split
      · exact hcheck
      · exact hcheck.append (hJ.activated _ _) rfl

/-- A call before its `handle`: the authority decides only where a source restarts and where
the updater asks. -/
theorem logs_submit (hJ : Note.Free J) (h : e.Logs J) {c : Call K}
    (hsaw : ∀ w ∈ c.walls, ∀ b a, J (.saw w b a))
    (hrestart : ∀ name mono wall snapshot, c = .sourceRestarting name mono wall snapshot →
      ({ e with restarting := name :: e.restarting }.publish sha256 mono wall snapshot).Logs J)
    (hrequest : ∀ record activate mono cross check mono' mono'' r,
      c = .leapRequest record activate mono cross check mono' mono'' r →
      ∀ x, x = ((e.processing mono).1.crossLeap (e.processing mono).2 cross) → x.Logs J →
        (x.checkLeap sha256 record check mono').1.Logs J) :
    (e.submit sha256 c).1.Logs J := by
  cases c with
  | tick mono cross r =>
    exact logs_crossLeap (e := (e.processing mono).1) hJ h
      (hsaw cross (List.mem_singleton_self cross))
  | measurement m mono cross mono' r =>
    have hcross : ((e.processing mono).1.crossLeap (e.processing mono).2 cross).Logs J :=
      logs_crossLeap (e := (e.processing mono).1) hJ h (hsaw cross (List.mem_singleton_self cross))
    have hnote : ∀ (x : Engine K) (name : Discipline.Name), (x.noteSourceAlive name).log =
        x.log := by
      intro x name
      unfold Engine.noteSourceAlive
      split <;> rfl
    unfold Engine.submit
    dsimp only
    split
    · exact hcross
    · unfold Engine.Logs
      dsimp only
      rw [hnote]
      exact hcross
  | sourceStopped name poll mono r =>
    unfold Engine.submit
    dsimp only
    split
    · exact h
    · exact h
  | sourceRestarting name mono wall snapshot => exact hrestart name mono wall snapshot rfl
  | leapRequest record activate mono cross check mono' mono'' r =>
    exact logs_leapRequest sha256 hJ
      (hrequest record activate mono cross check mono' mono'' r rfl _ rfl
      (logs_crossLeap (e := (e.processing mono).1) hJ h (hsaw cross List.mem_cons_self)))

/-- What a call logs, before its `handle` and in it. -/
theorem logs_call {e e' : Engine K} {c : Call K}
    (hsubmit : (e.submit sha256 c).1.Logs J)
    (hhandle : ∀ h ∈ (e.submit sha256 c).2,
      ((e.submit sha256 c).1.handle sha256 h.result h.now h.readings).Logs J)
    (he : e.call sha256 c = some e') : e'.Logs J := by
  unfold Engine.call at he
  split at he
  · split at he
    case h_1 x hx =>
      cases he
      rw [hx] at hsubmit
      exact hsubmit
    case h_2 x handling hx =>
      cases he
      rw [hx] at hhandle
      exact hhandle handling rfl
  · cases he

/-! ## Ordered readings keep the armings ahead -/

omit [Field K] [LinearOrder K] [HasSqrt K] in
/-- When a source restarts, the last wall time seen lies before the midnight that follows the
reading of the call. -/
def Engine.RestartsAhead (e : Engine K) : Call K → Prop
  | .sourceRestarting _ _ wall _ => e.lastLeapWall < nextMidnight wall
  | .tick _ _ _ | .measurement _ _ _ _ _ | .sourceStopped _ _ _ _ | .leapRequest _ _ _ _ _ _ _ _ =>
    True

instance (e : Engine K) : (c : Call K) → Decidable (e.RestartsAhead c)
  | .sourceRestarting _ _ wall _ => inferInstanceAs (Decidable (e.lastLeapWall < nextMidnight wall))
  | .tick _ _ _ | .measurement _ _ _ _ _ | .sourceStopped _ _ _ _ | .leapRequest _ _ _ _ _ _ _ _ =>
    .isTrue trivial

/-- Every arming so far lay ahead. -/
def Engine.Tidy (e : Engine K) : Prop := e.Logs Note.Ahead

theorem ahead_free : Note.Free Note.Ahead :=
  ⟨fun _ => trivial, fun _ => trivial, fun _ _ => trivial⟩

omit [HasSqrt K] in
/-- A reading before the midnight that follows it arms ahead. -/
theorem tidy_applyLeap (h : e.Tidy) (st : Discipline.Status K)
    (hahead : e.lastLeapWall < nextMidnight wall) : (e.applyLeap sha256 st wall).1.Tidy :=
  logs_applyLeap sha256 h st fun _ _ hnext _ _ => hahead.trans_eq hnext.symm

omit [HasSqrt K] in
/-- A wall time that is not behind the last one seen arms ahead. -/
theorem tidy_applyLeap_of_le (h : e.Tidy) (st : Discipline.Status K)
    (hwall : e.lastLeapWall ≤ wall) : (e.applyLeap sha256 st wall).1.Tidy :=
  tidy_applyLeap sha256 h st (hwall.trans_lt (lt_nextMidnight wall))

/-- In a call whose readings are in order, every arming lies ahead. -/
theorem tidy_call {e e' : Engine K} (h : e.Tidy) {c : Call K}
    (hc : e.Ordered sha256 c ∧ e.RestartsAhead c) (he : e.call sha256 c = some e') : e'.Tidy := by
  obtain ⟨⟨hsorted, hpos, hhandle⟩, hahead⟩ := hc
  have hsubmit : (e.submit sha256 c).1.Tidy := by
    refine logs_submit sha256 ahead_free h (fun w hw _ _ => ne_of_gt (hpos w hw)) ?_ ?_
    · rintro name mono wall snapshot rfl
      have hwall : e.lastLeapWall < nextMidnight wall := hahead
      exact tidy_applyLeap sha256
        (e := ({ e with restarting := name :: e.restarting }.processing mono).1) h _ hwall
    · rintro record activate mono cross check mono' mono'' r rfl x rfl hx
      exact tidy_applyLeap_of_le sha256
        (e := (((e.processing mono).1.crossLeap (e.processing mono).2 cross).processing mono').1) hx
        _
        (List.rel_of_pairwise_cons hsorted (List.mem_singleton_self check))
  refine logs_call sha256 hsubmit (fun handling hmem => ?_) he
  obtain ⟨hcross, hafter, happly, -, -⟩ := (hhandle handling hmem).2
  refine logs_handle sha256 ahead_free hsubmit (fun _ _ => ne_of_gt hcross)
    (fun _ _ => ne_of_gt hafter) ?_
  rintro x rfl halive hx
  refine tidy_applyLeap_of_le sha256 hx _ ?_
  -- the actions leave the wall clock as the crossing check or the step saw it
  rw [Engine.perform, (lastWall_acts handling.result.actions halive).2]
  unfold steps at happly
  split
  case isTrue hs => rwa [if_pos hs] at happly
  case isFalse hs => rwa [if_neg hs] at happly

/-- **A leap executes exactly once.**  In every run, for all readings of the clocks, all
activations and all votes, the executed boundaries increase strictly, so that each is
crossed, with its reset and its epoch bump, at most once; and what is armed or executed
after a boundary lies past it.  If moreover the wall clock does not go back inside a
call but by the call's own step, and no source restarts at a reading whose next midnight
is not past the last wall time seen, then each check or step that sees the wall clock at or
past the armed boundary disarms it, and the armed boundary is always ahead. -/
theorem leap_executes_once (cfg : EngineConfig K) (state : Leap.State) (freq : K) (known : Bool)
    (started : ℤ) (mono : K) (wall snapshot : ℤ) (calls : List (Call K)) (e : Engine K)
    (hrun : Runs.run (Engine.call sha256)
      (Engine.new sha256 cfg state freq known started mono wall snapshot) calls = some e) :
    (e.log.filterMap Note.executes).Pairwise (· < ·) ∧ e.log.Pairwise Note.Before ∧
    (0 < started → started ≤ wall →
      Runs.Along (Engine.call sha256) (fun e c => e.Ordered sha256 c ∧ e.RestartsAhead c)
        (Engine.new sha256 cfg state freq known started mono wall snapshot) calls →
      (∀ n ∈ e.log, n.Disarms) ∧ ∀ a ∈ e.pendingLeap, e.lastLeapWall < a.boundary) := by
  have hsteps := latch_reached sha256 hrun
  have honce := hsteps.invariant (J := Latch.Once state.executed) (fun _ _ hs h => once_step hs h)
    ⟨.nil, le_rfl, fun n hn => absurd hn List.not_mem_nil,
      fun a ha => absurd ha (Option.not_mem_none a)⟩
  refine ⟨executes_increasing honce.order, honce.order, fun hstarted hwall halong => ?_⟩
  have hnew : (Engine.new sha256 cfg state freq known started mono wall snapshot).Tidy :=
    tidy_applyLeap_of_le sha256
      (e := ((Engine.init cfg state freq known started mono).processing mono).1)
      (fun n hn => absurd hn List.not_mem_nil) _ hwall
  have htidy : e.Tidy := Runs.run_invariant
    (fun x c y hx hc hy => tidy_call sha256 hx hc hy) hnew halong hrun
  have hwatchful := hsteps.invariant (J := fun l => (∀ n ∈ l.log, n.Ahead) → l.Watchful)
    (fun _ _ hs h => watchful_step hs h)
    fun _ => ⟨ne_of_gt hstarted, fun a ha => absurd ha (Option.not_mem_none a),
      fun n hn => absurd hn List.not_mem_nil⟩
  exact ⟨(hwatchful htidy).disarms, (hwatchful htidy).pending⟩

/-! ## Two runs around the leap second of July 1972 -/

section Samples

open Discipline (gps report settlingConfig)
open Leap (firstBytes list1972 ntpTime)

/-- The boundary at the end of June 1972. -/
def july1972 : ℤ := ntpTime 2287785600

/-- A daemon with one source, started from a durable state. -/
def daemon (state : Leap.State) (started : ℤ) : Engine ℚ :=
  Engine.new firstBytes ⟨settlingConfig, [(gps, ⟨false, false, true, false, false⟩)], false, none⟩
    state 0 false started 0 started started

/-- The state with the list of 1972 active. -/
def state1972 : Leap.State :=
  ⟨some ⟨list1972, ⟨.file, [], 0⟩, ntpTime 2285000000⟩, none, ntpTime 2285000000, 0, 0⟩

/-- Readings that all show the same wall time, of an actuator that obeys. -/
def steady (wall : ℤ) : Readings := ⟨wall, wall, wall, wall, wall, true, true⟩

/-- A report taken off the queue at a wall time. -/
def receive (t : ℚ) (leap : Ntp.Leap) (wall : ℤ) : Call ℚ :=
  .measurement (report t leap) t wall t (steady wall)

/-- A daemon that synchronises before the boundary and ticks after it. -/
def crossingRun : List (Call ℚ) :=
  [receive 1 .none (july1972 - 70 * second), receive 65 .none (july1972 - 6 * second),
    .tick 72 (july1972 + second) (steady (july1972 + second))]

/-- The leap is armed and crossed in the run, once, and no check leaves it behind. -/
theorem leap_executes_once_july1972 :
    ∃ e, Runs.run (Engine.call firstBytes) (daemon state1972 (july1972 - 100 * second)) crossingRun
        = some e ∧
      e.log.filterMap Note.executes = [july1972] ∧ e.pendingLeap = none ∧
      (e.log.filterMap Note.executes).Pairwise (· < ·) ∧ ∀ n ∈ e.log, n.Disarms := by
  have h : (Runs.run (Engine.call firstBytes) (daemon state1972 (july1972 - 100 * second))
      crossingRun).map (fun e => (e.log.filterMap Note.executes, e.pendingLeap))
      = some ([july1972], none) := by decide +kernel
  obtain ⟨e, he, hlog⟩ := Option.map_eq_some_iff.mp h
  obtain ⟨hlog, hpending⟩ := Prod.mk.inj hlog
  have honce := leap_executes_once firstBytes _ _ _ _ _ _ _ _ crossingRun e he
  exact ⟨e, he, hlog, hpending, honce.1,
    (honce.2.2 (by decide +kernel) (by decide +kernel) (by decide +kernel)).1⟩

/-- A daemon that synchronises half a second after the boundary; then the wall clock is
set back by 0.7 s, a source restarts, and the clock goes past the boundary again. -/
def setBackRun : List (Call ℚ) :=
  [receive 1 .none (july1972 - 64 * second), receive 65 .none (july1972 + 500000000),
    .sourceRestarting gps 66 (july1972 - 200000000) (july1972 - 200000000),
    .tick 67 (july1972 + 800000000) (steady (july1972 + 800000000))]

/-- What the restart arms. -/
def leftBehind : Armed := ⟨july1972, .insert, july1972 - 200000000, .provider .file⟩

/-- Although no reading goes back inside a call, the restart arms the boundary that the
wall clock is past at the next tick, and the tick's checks leave it armed. -/
theorem armed_boundary_left_behind :
    ∃ e, Runs.run (Engine.call firstBytes) (daemon state1972 (july1972 - 100 * second)) setBackRun
        = some e ∧
      Runs.Along (Engine.call firstBytes) (fun e c => e.Ordered firstBytes c)
        (daemon state1972 (july1972 - 100 * second)) setBackRun ∧
      .saw (july1972 + 800000000) (some leftBehind) (some leftBehind) ∈ e.log ∧
      leftBehind.boundary ≤ july1972 + 800000000 ∧ e.pendingLeap = some leftBehind := by
  have h : (Runs.run (Engine.call firstBytes) (daemon state1972 (july1972 - 100 * second))
      setBackRun).map (fun e => (e.log.getLast?, e.pendingLeap))
      = some (some (.saw (july1972 + 800000000) (some leftBehind) (some leftBehind)),
          some leftBehind) := by decide +kernel
  obtain ⟨e, he, hlast⟩ := Option.map_eq_some_iff.mp h
  obtain ⟨hlast, hpending⟩ := Prod.mk.inj hlast
  exact ⟨e, he, by decide +kernel, List.mem_of_getLast? hlast, by decide +kernel, hpending⟩

end Samples

end Carillon
