/-
# The discipline after a clock step

Whenever an operation asks for a step, the system it leaves behind has started over:
it settles under a named system source, with no offset and no residual phase.  The
engine reads this as a clock that is known to within the guard band.
-/
import Carillon.Discipline.Settling

namespace Carillon.Discipline

variable {K : Type} [Field K]

/-- The system has started over after a step. -/
structure System.Restarted (s : System K) : Prop where
  state : s.state = .settling
  named : s.sysName ≠ none
  offset : s.offset = 0
  pending : s.loop.pending = 0

variable [LinearOrder K]

/-- The same before the tick's charge: the loop has just made its step. -/
structure System.JustStepped (s : System K) (now : K) : Prop where
  state : s.state = .settling
  named : s.sysName ≠ none
  offset : s.offset = 0
  loop : ∃ l : Loop K, s.loop = l.step now

variable {s : System K}

theorem System.JustStepped.restarted {now : K} (h : s.JustStepped now) :
    s.Restarted := by
  obtain ⟨l, hloop⟩ := h.loop
  refine ⟨h.state, h.named, h.offset, ?_⟩
  rw [hloop]
  rfl

variable [HasSqrt K]

/-- The loop steps on its verdict only. -/
theorem feed_justStepped {sel : Selection K} {sys : SourceState K} {now : K}
    (hname : s.sysName ≠ none) (h : (s.feed sel sys now).2.actions.any Action.isStep = true) :
    (s.feed sel sys now).1.JustStepped now := by
  unfold System.feed at h ⊢
  dsimp only at h ⊢
  rcases update_cases s.loop sel.offset sys.poll now (s.state = .synced)
    (s.mayStep sel.survivors sys) with ⟨v, hv, heq⟩ | heq | ⟨l, heq, -⟩
  · rw [heq] at h
    rcases hv with rfl | rfl | rfl <;> cases h
  · rw [heq]
    obtain ⟨-, hloop, -, hsys, hoffset, hstate, -⟩ :=
      restart_spec { s.consume sys with loop := s.loop.step now }
    refine ⟨hstate, fun hnone => hname ?_, hoffset, s.loop, hloop⟩
    exact hsys.symm.trans hnone
  · rw [heq] at h
    cases h

theorem drive_justStepped {sel : Selection K} {now : K} {sys : Option (SourceState K)}
    (h : (s.drive sel now sys).2.actions.any Action.isStep = true) :
    (s.drive sel now sys).1.JustStepped now := by
  cases sys with
  | none => cases h
  | some sys =>
    unfold System.drive at h ⊢
    dsimp only at h ⊢
    split at h
    · cases h
    case isFalse hnew =>
      rw [if_neg hnew]
      exact feed_justStepped (Option.some_ne_none _) h

theorem reselect_justStepped {now : K} (h : (s.reselect now).2.actions.any Action.isStep = true) :
    (s.reselect now).1.JustStepped now :=
  drive_justStepped h

/-- A measurement that steps the clock. -/
theorem update_restarted {m : Measurement K} (h : (s.update m).2.actions.any Action.isStep = true) :
    (s.update m).1.Restarted := by
  unfold System.update at h ⊢
  split at h
  case isTrue hreg =>
    rw [if_pos hreg]
    exact (reselect_justStepped h).restarted
  case isFalse => cases h

/-- A tick that steps the clock.  The tick's own charge comes after the step and finds
nothing to debit. -/
theorem tick_restarted [IsStrictOrderedRing K] {now : K}
    (h : (s.tick now).2.actions.any Action.isStep = true) : (s.tick now).1.Restarted := by
  have hactions : (s.tick now).2.actions
      = ((s.reselect now).1.loop.tick now).2 ++ (s.reselect now).2.actions := rfl
  rw [hactions, List.any_append, tick_steps, Bool.false_or] at h
  have hstepped := reselect_justStepped h
  have hexpire : (s.tick now).1
      = ({ (s.reselect now).1 with loop := ((s.reselect now).1.loop.tick now).1 }.expire now).1 :=
      rfl
  rw [hexpire]
  generalize (s.reselect now).1 = t at hstepped
  obtain ⟨l, hloop⟩ := hstepped.loop
  unfold System.expire
  rw [if_neg fun hheld => absurd (hstepped.state.symm.trans hheld.1) (by decide)]
  refine ⟨hstepped.state, hstepped.named, hstepped.offset, ?_⟩
  dsimp only
  rw [hloop]
  exact tick_step_pending l now

end Carillon.Discipline
