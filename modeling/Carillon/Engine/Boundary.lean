/-
# Which boundaries are armed

A leap armed under a table is a transition of that table, at the first midnight after
the wall time it was armed at, and every object activated until its execution keeps it.
A leap armed under the survivors' vote is at the first midnight as well, but nothing
ties that midnight to the end of June or December: sources that still announce a leap
after its boundary arm the midnight of the day after.  `Engine.VotesInSeason` is what a
call must meet for that not to happen: where the survivors decide and vote for a leap,
the clock reads 30 June or 31 December.
-/
import Mathlib.Data.List.TakeWhile
import Carillon.Engine.Once
import Carillon.Discipline.Silence

namespace Carillon

open Discipline (HasSqrt)
open Leap (Digest Object Record Table)

/-! ## Armings -/

/-- An arming is of the first midnight after its wall time; under a table it is a
transition of a valid table, which is the active object's if there is one. -/
def Note.Sound : Note → Prop
  | .armed a _ active => a.boundary = nextMidnight a.wall ∧
      (a.authority ≠ .sources → a.Grounded active)
  | .crossed _ | .passed _ | .saw _ _ _ | .activated _ _ => True

theorem sound_step {l l' : Latch} (hs : Latch.Step l l') (h : ∀ n ∈ l.log, n.Sound) :
    ∀ n ∈ l'.log, n.Sound := by
  cases hs with
  | @execute a wall n armed note =>
    refine List.forall_mem_append.mpr ⟨List.forall_mem_append.mpr ⟨h, ?_⟩, ?_⟩
    · rw [List.forall_mem_singleton]
      rcases note with rfl | rfl <;> trivial
    · rw [List.forall_mem_singleton]
      trivial
  | look wall ahead =>
    exact List.forall_mem_append.mpr ⟨h, List.forall_mem_singleton.mpr trivial⟩
  | arm a idle fresh next grounded =>
    exact List.forall_mem_append.mpr ⟨h, List.forall_mem_singleton.mpr ⟨next, grounded⟩⟩
  | activate o kept =>
    exact List.forall_mem_append.mpr ⟨h, List.forall_mem_singleton.mpr trivial⟩

/-! ## From arming to execution -/

/-- The notes before the next execution. -/
def untilExecution (log : List Note) : List Note := log.takeWhile (·.executes.isNone)

/-- The last note of a log, or a note before it. -/
theorem snoc_eq_append_cons {log l₁ l₂ : List Note} {m n : Note} (h : log ++ [n] = l₁ ++ m :: l₂) :
    (l₂ = [] ∧ m = n) ∨ ∃ l, l₂ = l ++ [n] ∧ log = l₁ ++ m :: l := by
  rcases List.eq_nil_or_concat' l₂ with rfl | ⟨l, x, rfl⟩
  · exact .inl ⟨rfl, (List.append_inj' h rfl).2 |> List.singleton_inj.mp |>.symm⟩
  · rw [← List.cons_append, ← List.append_assoc] at h
    obtain ⟨hlog, hn⟩ := List.append_inj' h rfl
    exact .inr ⟨l, by rw [List.singleton_inj.mp hn], hlog⟩

theorem mem_untilExecution_snoc {l : List Note} {m n : Note} (h : m ∈ untilExecution (l ++ [n])) :
    m ∈ untilExecution l ∨ (∀ x ∈ l, x.executes = none) ∧ m = n := by
  unfold untilExecution at h ⊢
  rw [List.takeWhile_append] at h
  split at h
  case isTrue hall =>
    have hl : l.takeWhile (·.executes.isNone) = l := (List.takeWhile_prefix _).eq_of_length hall
    rcases List.mem_append.mp h with h | h
    · rw [hl]
      exact .inl h
    · refine .inr ⟨fun x hx => ?_, List.mem_singleton.mp ((List.takeWhile_sublist _).subset h)⟩
      exact Option.isNone_iff_eq_none.mp (List.takeWhile_eq_self_iff.mp hl x hx)
  case isFalse => exact .inl h

/-- An armed leap stays the armed one until it is executed, and every object activated
in between has it as a transition. -/
def Latch.Tracked (l : Latch) : Prop :=
  ∀ l₁ a last active l₂, l.log = l₁ ++ .armed a last active :: l₂ →
    ((∀ n ∈ l₂, n.executes = none) → l.pending = some a) ∧
    ∀ o p, .activated o p ∈ untilExecution l₂ → a.In o.table

/-- A note that neither arms nor executes keeps track. -/
theorem Latch.Tracked.note {l : Latch} (h : l.Tracked) {n : Note} (wall : ℤ)
    (active : Option Object) (harmed : ∀ a last o, n ≠ .armed a last o)
    (hkept : ∀ o p, n = .activated o p → ∀ a ∈ l.pending, a.In o.table) :
    Latch.Tracked { l with lastWall := wall, active := active, log := l.log ++ [n] } := by
  intro l₁ a last o l₂ hlog
  rcases snoc_eq_append_cons hlog with ⟨-, hm⟩ | ⟨l', rfl, hlog'⟩
  · exact absurd hm.symm (harmed a last o)
  obtain ⟨hpending, hactivated⟩ := h l₁ a last o l' hlog'
  refine ⟨fun hnone => hpending fun m hm => hnone m (List.mem_append_left _ hm), fun x p hx => ?_⟩
  rcases mem_untilExecution_snoc hx with hx | ⟨hnone, hx⟩
  · exact hactivated x p hx
  · exact hkept x p hx.symm a (hpending hnone)

theorem tracked_step {l l' : Latch} (hs : Latch.Step l l') (h : l.Tracked) : l'.Tracked := by
  cases hs with
  | @execute a wall n armed note =>
    have hexecuted : Latch.Tracked
        { l with executed := a.boundary, pending := none, log := l.log ++ [n] } := by
      intro l₁ b last o l₂ hlog
      rcases snoc_eq_append_cons hlog with ⟨-, hm⟩ | ⟨l', rfl, hlog'⟩
      · rcases note with rfl | rfl <;> cases hm
      · refine ⟨fun hnone => ?_, fun x p hx => ?_⟩
        · have hn := hnone n (List.mem_append_right _ (List.mem_singleton_self n))
          rcases note with rfl | rfl <;> cases hn
        · rcases mem_untilExecution_snoc hx with hx | ⟨-, hx⟩
          · exact (h l₁ b last o l' hlog').2 x p hx
          · rcases note with rfl | rfl <;> cases hx
    exact hexecuted.note wall l.active (fun _ _ _ hn => by cases hn) fun _ _ hn => by cases hn
  | look wall ahead =>
    exact h.note wall l.active (fun _ _ _ hn => by cases hn) fun _ _ hn => by cases hn
  | arm a idle fresh next grounded =>
    intro l₁ b last o l₂ hlog
    rcases snoc_eq_append_cons hlog with ⟨rfl, hm⟩ | ⟨l', rfl, hlog'⟩
    · cases hm
      exact ⟨fun _ => rfl, fun _ _ hx => absurd hx List.not_mem_nil⟩
    · -- nothing is armed while an earlier arming stands
      obtain ⟨hpending, hactivated⟩ := h l₁ b last o l' hlog'
      have hexecuted : ¬ ∀ n ∈ l', n.executes = none := fun hnone => by
        rw [hpending hnone] at idle
        cases idle
      refine ⟨fun hnone => absurd (fun m hm => hnone m (List.mem_append_left _ hm)) hexecuted,
        fun x p hx => ?_⟩
      rcases mem_untilExecution_snoc hx with hx | ⟨hnone, -⟩
      · exact hactivated x p hx
      · exact absurd hnone hexecuted
  | activate o kept =>
    refine h.note l.lastWall (some o) (fun _ _ _ hn => by cases hn) fun x p hn a ha => ?_
    cases hn
    exact kept a ha

/-- A leap armed under a table is a transition of the active object. -/
def Latch.Consistent (l : Latch) : Prop :=
  ∀ a ∈ l.pending, a.authority ≠ .sources → ∀ o ∈ l.active, a.In o.table

theorem consistent_step {l l' : Latch} (hs : Latch.Step l l') (h : l.Consistent) :
    l'.Consistent := by
  cases hs with
  | execute wall n armed note => exact fun a ha => absurd ha (Option.not_mem_none a)
  | look wall ahead => exact h
  | arm a idle fresh next grounded =>
    intro b hb hauthority o ho
    obtain rfl : a = b := Option.some.inj hb
    obtain ⟨t, -, hin, hactive⟩ := grounded hauthority
    rw [hactive o ho]
    exact hin
  | activate o kept =>
    intro a ha _ x hx
    obtain rfl : o = x := Option.some.inj hx
    exact kept a ha

variable {K : Type} [Field K] [LinearOrder K] [HasSqrt K] (sha256 : Bytes → Digest)

/-- The armings of a run, in order. -/
def Engine.armings (e : Engine K) : List Armed :=
  e.log.filterMap fun
    | .armed a _ _ => some a
    | .crossed _ | .passed _ | .saw _ _ _ | .activated _ _ => none

variable {e : Engine K}

omit [Field K] [LinearOrder K] [HasSqrt K] in
theorem mem_armings {a : Armed} :
    a ∈ e.armings ↔ ∃ last active, .armed a last active ∈ e.log := by
  unfold Engine.armings
  rw [List.mem_filterMap]
  constructor
  · rintro ⟨n, hn, ha⟩
    cases n with
    | armed b last active =>
      cases ha
      exact ⟨last, active, hn⟩
    | crossed b => cases ha
    | passed b => cases ha
    | saw wall before after => cases ha
    | activated o p => cases ha
  · rintro ⟨last, active, h⟩
    exact ⟨_, h, rfl⟩

/-- Every arming of a run is sound. -/
theorem sound_run {cfg : EngineConfig K} {state : Leap.State} {freq : K} {known : Bool}
    {started : ℤ} {mono : K} {wall snapshot : ℤ} {calls : List (Call K)}
    (hrun : Runs.run (Engine.call sha256)
      (Engine.new sha256 cfg state freq known started mono wall snapshot) calls = some e) :
    ∀ n ∈ e.log, n.Sound :=
  (latch_reached sha256 hrun).invariant (J := fun l => ∀ n ∈ l.log, n.Sound)
    (fun _ _ hs h => sound_step hs h) fun _ hn => absurd hn List.not_mem_nil

/-! ## Votes in season -/

/-- Where the survivors sway the engine, the wall time is on 30 June or 31 December. -/
def Engine.InSeason (e : Engine K) (wall : ℤ) : Prop :=
  e.Swayed sha256 e.sys.leap wall → isFinalDay (dateOf wall) = true

/-- The readings of a call at which the authority may arm are in season: that of `handle`,
for the engine the call hands to it, that of a restart and that of the updater's request. -/
def Engine.VotesInSeason (e : Engine K) (c : Call K) : Prop :=
  (∀ h ∈ (e.submit sha256 c).2, (e.submit sha256 c).1.InSeason sha256 h.readings.apply) ∧
    match c with
    | .sourceRestarting _ _ wall _ => e.InSeason sha256 wall
    | .leapRequest _ _ _ _ check _ _ _ => e.InSeason sha256 check
    | .tick _ _ _ | .measurement _ _ _ _ _ | .sourceStopped _ _ _ _ => True

instance (e : Engine K) (vote : Ntp.Leap) (wall : ℤ) : Decidable (e.Swayed sha256 vote wall) :=
  inferInstanceAs (Decidable (_ ∧ _ ∧ _))

instance (e : Engine K) (wall : ℤ) : Decidable (e.InSeason sha256 wall) :=
  inferInstanceAs (Decidable (_ → _))

instance (e : Engine K) : (c : Call K) → Decidable (e.VotesInSeason sha256 c)
  | .sourceRestarting _ _ _ _ | .leapRequest _ _ _ _ _ _ _ _ => inferInstanceAs (Decidable (_ ∧ _))
  | .tick _ _ _ | .measurement _ _ _ _ _ | .sourceStopped _ _ _ _ =>
    inferInstanceAs (Decidable (_ ∧ True))

/-- An arming of the survivors' is on 30 June or 31 December. -/
def Note.InSeason : Note → Prop
  | .armed a _ _ => a.authority = .sources → isFinalDay (dateOf a.wall) = true
  | .crossed _ | .passed _ | .saw _ _ _ | .activated _ _ => True

theorem inSeason_free : Note.Free Note.InSeason :=
  ⟨fun _ => trivial, fun _ => trivial, fun _ _ => trivial⟩

variable {sha256}

omit [Field K] [LinearOrder K] [HasSqrt K] in
/-- Who decides, and how the survivors vote, is all that matters. -/
theorem Engine.InSeason.of_eq {e e' : Engine K} {wall : ℤ} (h : e.InSeason sha256 wall)
    (hcfg : e'.cfg = e.cfg) (hactive : e'.activeLeap = e.activeLeap)
    (hbound : e'.utcBound = e.utcBound) (hsys : e'.sys = e.sys) : e'.InSeason sha256 wall := by
  unfold Engine.InSeason Engine.Swayed Engine.table at h ⊢
  rwa [hcfg, hactive, hbound, hsys]

omit [Field K] [LinearOrder K] [HasSqrt K] in
theorem Engine.InSeason.of_unsync (h : e.sys.leap = .unsync) (wall : ℤ) :
    e.InSeason sha256 wall := by
  rintro ⟨hvote, -⟩
  rw [h] at hvote
  exact absurd hvote (by decide)

/-- A crossing leaves the authority alone, or ends the vote. -/
theorem Engine.InSeason.crossLeap {wall : ℤ} (h : e.InSeason sha256 wall) (now : K) (cross : ℤ) :
    (e.crossLeap now cross).InSeason sha256 wall := by
  unfold Engine.crossLeap
  dsimp only
  split
  · split
    · exact .of_unsync (Discipline.resync_leap e.sys now) wall
    · exact h.of_eq rfl rfl rfl rfl
  · exact h.of_eq rfl rfl rfl rfl

omit [HasSqrt K] in
/-- The actions of a result leave the authority alone. -/
theorem Engine.InSeason.acts {r : Readings} {wall : ℤ} (actions : List (Discipline.Action K))
    (h : e.InSeason sha256 wall) :
    (actions.foldl (Engine.act r) e).InSeason sha256 wall := by
  induction actions generalizing e with
  | nil => exact h
  | cons a actions ih =>
    refine ih ?_
    unfold Engine.act Engine.stepped
    split
    · split
      · exact h.of_eq rfl rfl rfl rfl
      · split
        · exact h.of_eq rfl rfl rfl rfl
        · dsimp only
          split
          · split
            · split <;> exact h.of_eq rfl rfl rfl rfl
            · exact h.of_eq rfl rfl rfl rfl
          · exact h.of_eq rfl rfl rfl rfl
      · exact h
    · exact h

omit [HasSqrt K] in
/-- In season the authority arms in season. -/
theorem inSeason_applyLeap (h : e.Logs Note.InSeason) {wall : ℤ} (hseason : e.InSeason sha256 wall)
    (now : K) :
    (e.applyLeap sha256 (e.sys.status now) wall).1.Logs Note.InSeason := by
  refine logs_applyLeap sha256 h _ fun a o _ hwall hsources hauthority => ?_
  obtain ⟨hvote, htable⟩ := hsources hauthority
  -- a status that warns shows the vote itself
  have hleap : (e.sys.status now).leap = e.sys.leap ∨ (e.sys.status now).leap = .unsync := by
    unfold Discipline.System.status
    dsimp only
    split <;> simp
  rcases hleap with hleap | hleap
  · rw [hleap] at hvote
    rw [hwall]
    exact hseason ⟨hvote, htable⟩
  · rw [hleap] at hvote
    exact absurd hvote (by decide)

theorem inSeason_call {e e' : Engine K} (h : e.Logs Note.InSeason) {c : Call K}
    (hc : e.VotesInSeason sha256 c) (he : e.call sha256 c = some e') : e'.Logs Note.InSeason := by
  obtain ⟨hhandle, hbefore⟩ := hc
  have hsubmit : (e.submit sha256 c).1.Logs Note.InSeason := by
    refine logs_submit sha256 inSeason_free h (fun _ _ _ _ => trivial) ?_ ?_
    · rintro name mono wall snapshot rfl
      exact inSeason_applyLeap
        (e := ({ e with restarting := name :: e.restarting }.processing mono).1) h hbefore _
    · rintro record activate mono cross check mono' mono'' r rfl x rfl hx
      exact inSeason_applyLeap
        (e := (((e.processing mono).1.crossLeap (e.processing mono).2 cross).processing mono').1) hx
        (Engine.InSeason.crossLeap (e := (e.processing mono).1) hbefore _ cross) _
  refine logs_call sha256 hsubmit (fun handling hmem => ?_) he
  refine logs_handle sha256 inSeason_free hsubmit (fun _ _ => trivial) (fun _ _ => trivial) ?_
  rintro x rfl - hx
  refine inSeason_applyLeap hx (Engine.InSeason.acts _ ?_) _
  exact Engine.InSeason.crossLeap (e := ((e.submit sha256 c).1.processing handling.now).1)
    (hhandle handling hmem) _ _

variable (sha256)

omit [HasSqrt K] in
/-- Nothing is armed when the daemon starts: nobody has voted. -/
theorem inSeason_new (cfg : EngineConfig K) (state : Leap.State) (freq : K) (known : Bool)
    (started : ℤ) (mono : K) (wall snapshot : ℤ) :
    (Engine.new sha256 cfg state freq known started mono wall snapshot).Logs Note.InSeason := by
  have hleap : ∀ (sources : List (Discipline.Name × Discipline.Options)) (s : Discipline.System K),
      (sources.foldl (fun s src => s.addSource src.1 src.2) s).leap = s.leap := by
    intro sources
    induction sources with
    | nil => exact fun _ => rfl
    | cons src sources ih =>
      intro s
      rw [List.foldl_cons, ih]
      unfold Discipline.System.addSource
      split <;> rfl
  exact inSeason_applyLeap
    (e := ((Engine.init cfg state freq known started mono).processing mono).1)
    (fun n hn => absurd hn List.not_mem_nil) (.of_unsync (hleap cfg.sources _) wall) _

/-- **Armed boundaries.**  In every run whose calls take the survivors' votes for a leap in
season, every armed boundary is midnight UTC of 1 January or 1 July: a table arms its own
transitions, and a vote arms the midnight after 30 June or 31 December. -/
theorem armed_boundaries (cfg : EngineConfig K) (state : Leap.State) (freq : K) (known : Bool)
    (started : ℤ) (mono : K) (wall snapshot : ℤ) (calls : List (Call K)) (e : Engine K)
    (hseason : Runs.Along (Engine.call sha256) (Engine.VotesInSeason sha256)
      (Engine.new sha256 cfg state freq known started mono wall snapshot) calls)
    (hrun : Runs.run (Engine.call sha256)
      (Engine.new sha256 cfg state freq known started mono wall snapshot) calls = some e) :
    ∀ a ∈ e.armings, IsLeapBoundary a.boundary := by
  have hlogs : e.Logs Note.InSeason := Runs.run_invariant
    (fun _ _ _ hx hc hy => inSeason_call hx hc hy)
    (inSeason_new sha256 cfg state freq known started mono wall snapshot) hseason hrun
  intro a ha
  obtain ⟨last, active, hmem⟩ := mem_armings.mp ha
  obtain ⟨hnext, hgrounded⟩ := sound_run sha256 hrun _ hmem
  by_cases hsources : a.authority = .sources
  · rw [hnext, isLeapBoundary_nextMidnight]
    exact hlogs _ hmem hsources
  · obtain ⟨t, hvalid, hin, -⟩ := hgrounded hsources
    exact hvalid.boundary _ hin

/-- **An event armed under a table stays consistent with every table.**  Wherever a run
arms a leap under a table, it is at the first midnight after the wall time, it is a
transition of the object that was active, and of every object activated from then until
its execution, in the same direction.  As long as it is not executed it stays the armed
one, and the active object has it. -/
theorem armed_under_table_consistent (cfg : EngineConfig K) (state : Leap.State) (freq : K)
    (known : Bool) (started : ℤ) (mono : K) (wall snapshot : ℤ) (calls : List (Call K))
    (e : Engine K) (hrun : Runs.run (Engine.call sha256)
      (Engine.new sha256 cfg state freq known started mono wall snapshot) calls = some e)
    (l₁ l₂ : List Note) (a : Armed) (last : ℤ) (active : Option Object)
    (harmed : e.log = l₁ ++ .armed a last active :: l₂) (htable : a.authority ≠ .sources) :
    a.boundary = nextMidnight a.wall ∧ (∀ o ∈ active, a.In o.table) ∧
    (∀ o p, .activated o p ∈ untilExecution l₂ → a.In o.table) ∧
    ((∀ n ∈ l₂, n.executes = none) →
      e.pendingLeap = some a ∧ ∀ r ∈ e.activeLeap, a.In r.object.table) := by
  have hsteps := latch_reached sha256 hrun
  have htracked := hsteps.invariant (J := Latch.Tracked) (fun _ _ hs h => tracked_step hs h)
    fun l₁ _ _ _ _ hnil => absurd hnil.symm (by simp)
  have hconsistent := hsteps.invariant (J := Latch.Consistent)
    (fun _ _ hs h => consistent_step hs h) fun a ha => absurd ha (Option.not_mem_none a)
  have hmem : Note.armed a last active ∈ e.log := by
    rw [harmed]
    exact List.mem_append_right _ List.mem_cons_self
  obtain ⟨hnext, hgrounded⟩ := sound_run sha256 hrun _ hmem
  obtain ⟨t, -, hin, hactive⟩ := hgrounded htable
  obtain ⟨hpending, hactivated⟩ := htracked l₁ a last active l₂ harmed
  refine ⟨hnext, fun o ho => ?_, hactivated, fun hnone => ⟨hpending hnone, fun r hr => ?_⟩⟩
  · rw [hactive o ho]
    exact hin
  · exact hconsistent a (hpending hnone) htable r.object (Option.mem_map_of_mem _ hr)

/-! ## Runs around New Year 1973 and July 1972 -/

section Samples

open Discipline (report)
open Leap (firstBytes list1972 list1972b ntpTime)

/-- The boundary at the end of December 1972. -/
def january1973 : ℤ := ntpTime 2303683200

/-- A daemon without a table follows a source that announces the leap, and crosses it. -/
def announcedRun : List (Call ℚ) :=
  [receive 1 .insert (january1973 - 70 * second), receive 65 .insert (january1973 - 6 * second),
    .tick 72 (january1973 + second) (steady (january1973 + second))]

/-- The vote of 31 December arms New Year, and nothing else is armed. -/
theorem armed_boundaries_january1973 :
    ∃ e, Runs.run (Engine.call firstBytes) (daemon .empty (january1973 - 100 * second)) announcedRun
        = some e ∧
      e.armings = [⟨january1973, .insert, january1973 - 6 * second, .sources⟩] ∧
      ∀ a ∈ e.armings, IsLeapBoundary a.boundary := by
  have h : (Runs.run (Engine.call firstBytes) (daemon .empty (january1973 - 100 * second))
      announcedRun).map Engine.armings
      = some [⟨january1973, .insert, january1973 - 6 * second, .sources⟩] := by decide +kernel
  obtain ⟨e, he, harmings⟩ := Option.map_eq_some_iff.mp h
  exact ⟨e, he, harmings,
    armed_boundaries firstBytes _ _ _ _ _ _ _ _ announcedRun e (by decide +kernel) he⟩

/-- The source goes on announcing the leap a minute after the boundary. -/
def lingeringRun : List (Call ℚ) :=
  announcedRun ++ [.measurement { report 129 .insert with generation := 4 } 129
    (january1973 + 58 * second) 129 (steady (january1973 + 58 * second))]

/-- Its vote arms the midnight at the end of 1 January, and the kernel is told to insert
a second there. -/
theorem lingering_vote_arms :
    ∃ e, Runs.run (Engine.call firstBytes) (daemon .empty (january1973 - 100 * second)) lingeringRun
        = some e ∧
      Runs.Along (Engine.call firstBytes) (fun e c => e.Ordered firstBytes c)
        (daemon .empty (january1973 - 100 * second)) lingeringRun ∧
      (∃ a, e.pendingLeap = some a ∧ a ∈ e.armings ∧ ¬ IsLeapBoundary a.boundary) ∧
      (e.lastKernel.map (·.leap)) = some .insert := by
  have h : (Runs.run (Engine.call firstBytes) (daemon .empty (january1973 - 100 * second))
      lingeringRun).map (fun e => (e.pendingLeap, e.armings.getLast?, e.lastKernel.map (·.leap)))
      = some (some ⟨nextMidnight (january1973 + 58 * second), .insert, january1973 + 58 * second,
          .sources⟩,
        some ⟨nextMidnight (january1973 + 58 * second), .insert, january1973 + 58 * second,
          .sources⟩,
        some .insert) := by decide +kernel
  obtain ⟨e, he, heq⟩ := Option.map_eq_some_iff.mp h
  obtain ⟨hpending, heq⟩ := Prod.mk.inj heq
  obtain ⟨hlast, hkernel⟩ := Prod.mk.inj heq
  refine ⟨e, he, by decide +kernel, ⟨_, hpending, List.mem_of_getLast? hlast, ?_⟩, hkernel⟩
  rw [isLeapBoundary_nextMidnight]
  decide +kernel

/-- The list that replaces the one of 1972. -/
def record1972b : Record := ⟨list1972b, ⟨.file, [], 0⟩, july1972 - 4 * second⟩

/-- The list is replaced while its leap is armed, and then the leap is crossed. -/
def replacingRun : List (Call ℚ) :=
  [receive 1 .none (july1972 - 70 * second), receive 65 .none (july1972 - 6 * second),
    .leapRequest record1972b false 66 (july1972 - 5 * second) (july1972 - 5 * second) 66 66
      (steady (july1972 - 5 * second)),
    .leapRequest record1972b true 67 (july1972 - 4 * second) (july1972 - 4 * second) 67 67
      (steady (july1972 - 4 * second)),
    .tick 72 (july1972 + second) (steady (july1972 + second))]

/-- What the list of 1972 arms. -/
def armedJuly : Armed := ⟨july1972, .insert, july1972 - 6 * second, .provider .file⟩

/-- The list that took over has the armed leap, which is then executed. -/
theorem armed_under_table_consistent_july1972 :
    ∃ e, Runs.run (Engine.call firstBytes) (daemon state1972 (july1972 - 100 * second)) replacingRun
        = some e ∧
      e.armings = [armedJuly] ∧ e.log.filterMap Note.executes = [july1972] ∧
      .activated list1972b (some armedJuly) ∈ e.log ∧ armedJuly.In list1972b.table := by
  have h : (Runs.run (Engine.call firstBytes) (daemon state1972 (july1972 - 100 * second))
      replacingRun).map (fun e => (e.armings, e.log.filterMap Note.executes, e.log[4]?,
        decide (.activated list1972b (some armedJuly) ∈ untilExecution (e.log.drop 5))))
      = some ([armedJuly], [july1972],
        some (.armed armedJuly (july1972 - 6 * second) (some list1972)), true) := by decide +kernel
  obtain ⟨e, he, heq⟩ := Option.map_eq_some_iff.mp h
  obtain ⟨harmings, heq⟩ := Prod.mk.inj heq
  obtain ⟨hexecutes, heq⟩ := Prod.mk.inj heq
  obtain ⟨hget, hactivated⟩ := Prod.mk.inj heq
  obtain ⟨hlen, hget⟩ := List.getElem?_eq_some_iff.mp hget
  have hmem := of_decide_eq_true hactivated
  have hlog : e.log = e.log.take 4 ++
      .armed armedJuly (july1972 - 6 * second) (some list1972) :: e.log.drop 5 := by
    rw [← hget, List.getElem_cons_drop, List.take_append_drop]
  exact ⟨e, he, harmings, hexecutes,
    List.mem_of_mem_drop ((List.takeWhile_sublist _).subset hmem),
    (armed_under_table_consistent firstBytes _ _ _ _ _ _ _ _ replacingRun e he _ _ _ _ _ hlog
      (by decide)).2.2.1 _ _ hmem⟩

end Samples

end Carillon
