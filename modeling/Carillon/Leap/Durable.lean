/-
# What the updater hands to the store

The UTC bound of the states that the updater saves never moves backward.
-/
import Mathlib.Tactic
import Carillon.Leap.Activation

namespace Carillon.Leap

section

variable (w : World) (out : SaveOutcome)

/-- A save adds the state to those handed to the store. -/
theorem World.save_saves : (w.save out).saves = w.u.state :: w.saves := by
  rcases out with _ | _ | _ <;> rfl

/-- The state itself stays. -/
theorem World.save_state : (w.save out).u.state = w.u.state := by
  rcases out with _ | _ | _ <;> rfl

end

/-! ## The UTC bound

`install` takes the bound from its view without looking at the one it holds; the
checkpoint and the seed check only raise it. -/

/-- A checkpoint takes the execution record and the bound from the view, or leaves
them; a new execution record comes with a bound that is no earlier than the view's. -/
theorem checkpoint_state (u : Updater) (v : View) (force : Bool) :
    ∃ x b, (u.checkpoint v force).state = { u.state with executed := x, utcBound := b } ∧
      (b = u.state.utcBound ∨ (u.state.utcBound < v.utcBound ∧ b = v.utcBound)) ∧
      (x = u.state.executed ∨ (x = v.executed ∧ v.utcBound ≤ b)) := by
  unfold Updater.checkpoint
  dsimp only
  by_cases hx : u.state.executed < v.executed
  · by_cases hb : u.state.utcBound < v.utcBound
    · refine ⟨v.executed, v.utcBound, ?_, .inr ⟨hb, rfl⟩, .inr ⟨rfl, le_rfl⟩⟩
      simp [hx, hb]
    · refine ⟨v.executed, u.state.utcBound, ?_, .inl rfl, .inr ⟨rfl, not_lt.mp hb⟩⟩
      simp [hx, hb]
  · simp only [hx, decide_false, Bool.false_eq_true, if_false]
    split_ifs with hc
    · exact ⟨u.state.executed, v.utcBound, rfl, .inr ⟨hc.1, rfl⟩, .inl rfl⟩
    · exact ⟨u.state.executed, u.state.utcBound, rfl, .inl rfl, .inl rfl⟩

/-- A seed check records its date, with the least bound that covers the held one, the
view's and the date. -/
theorem seedChecked_state (u : Updater) (v : View) :
    (u.seedChecked v).state = u.state ∨ (v.known = true ∧ (u.seedChecked v).state =
      { u.state with
        lastCheck := v.now, utcBound := max (max u.state.utcBound v.utcBound) v.now }) := by
  unfold Updater.seedChecked
  by_cases hk : v.known = true
  · refine .inr ⟨hk, ?_⟩
    rw [if_pos hk]
    dsimp only
    congr 1
    split_ifs <;> omega
  · exact .inl (by rw [if_neg hk])

/-- A checkpoint does not lower the bound. -/
theorem bound_le_checkpoint (u : Updater) (v : View) (force : Bool) :
    u.state.utcBound ≤ (u.checkpoint v force).state.utcBound := by
  obtain ⟨x, b, hst, hb, -⟩ := checkpoint_state u v force
  rw [hst]
  rcases hb with rfl | ⟨hlt, rfl⟩
  · exact le_rfl
  · exact hlt.le

/-- Nor does the end of a seed check. -/
theorem bound_le_seedChecked (u : Updater) (v : View) :
    u.state.utcBound ≤ (u.seedChecked v).state.utcBound := by
  rcases seedChecked_state u v with hst | ⟨-, hst⟩ <;> rw [hst]
  exact (le_max_left _ _).trans (le_max_left _ _)

/-- The bounds of the saved states are nondecreasing from `b` on, and none exceeds the
bound that the updater holds. -/
structure World.Forward (b : ℤ) (w : World) : Prop where
  mono : (w.saves.map (·.utcBound)).Pairwise (fun later earlier => earlier ≤ later)
  held : ∀ s ∈ w.saves, s.utcBound ≤ w.u.state.utcBound
  start : b ≤ w.u.state.utcBound ∧ ∀ s ∈ w.saves, b ≤ s.utcBound

/-- An installation that is approved was decided at an instant no earlier than the
bound that the updater holds. -/
def InstallsForward (w : World) (l : Label) : Prop :=
  match l, w.pc, w.slot with
  | .receive, .approveInstall r, some q =>
    q.phase = .answered true → w.u.state.utcBound ≤ r.accepted
  | _, _, _ => True

instance (w : World) (l : Label) : Decidable (InstallsForward w l) := by
  unfold InstallsForward
  split <;> infer_instance

section

variable {w w' : World} {mode : Mode} {sha256 : Bytes → Digest}
  {accepts : Option Object → Object → ℤ → Bool}

/-- Raising the held bound keeps the saved ones in order. -/
theorem World.Forward.raise {b : ℤ} (h : w.Forward b)
    (hu : w.u.state.utcBound ≤ w'.u.state.utcBound) (hs : w'.saves = w.saves) : w'.Forward b := by
  obtain ⟨h₁, h₂, h₃, h₄⟩ := h
  rw [← hs] at h₁ h₂ h₄
  exact ⟨h₁, fun s hs => (h₂ s hs).trans hu, h₃.trans hu, h₄⟩

/-- Every step keeps the saved bounds in order. -/
theorem forward_step {b : ℤ} {l : Label} (h : w.Forward b) (hC : InstallsForward w l)
    (hstep : step sha256 accepts mode w l = some w') : w'.Forward b := by
  cases step_takes hstep with
  | goes l inflight w' hl rests job lands =>
    obtain ⟨hu, hs, -⟩ := lands.frame
    exact h.raise (by rw [hu]) hs
  | checkpoint v force pc rests hpc => exact h.raise (bound_le_checkpoint _ _ _) rfl
  | seedCheck v rests => exact h.raise (bound_le_seedChecked _ _) rfl
  | approved r q asked hslot hphase =>
    simp only [InstallsForward, asked, hslot] at hC
    exact h.raise (hC hphase) rfl
  | saves out w' rests lands =>
    -- the state that is saved has the bound that is held
    obtain ⟨hu, hs, -⟩ := lands.frame
    have hst : w'.u.state = w.u.state := by rw [hu, World.save_state]
    rw [World.save_saves] at hs
    obtain ⟨h₁, h₂, h₃, h₄⟩ := h
    refine ⟨?_, ?_, by rwa [hst], ?_⟩
    · rw [hs, List.map_cons, List.pairwise_cons]
      refine ⟨?_, h₁⟩
      simpa using h₂
    · rw [hs, hst]
      simpa using h₂
    · rw [hs]
      simpa using ⟨h₃, h₄⟩
  | _ => exact h.raise le_rfl rfl

end

/-- The durable UTC bound never moves backward in a run whose approved installations
were each decided no earlier than the held bound. -/
theorem saved_bounds_forward (sha256 : Bytes → Digest)
    (accepts : Option Object → Object → ℤ → Bool) (mode : Mode) (s : State) (ls : List Label)
    (w : World) (hinstalls : Runs.Along (step sha256 accepts mode) InstallsForward (World.start s)
      ls)
    (hrun : Runs.run (step sha256 accepts mode) (World.start s) ls = some w) :
    (w.saves.map (·.utcBound)).Pairwise (fun later earlier => earlier ≤ later) ∧
      ∀ st ∈ w.saves, s.utcBound ≤ st.utcBound := by
  have hstart : (World.start s).Forward s.utcBound := by
    refine ⟨List.Pairwise.nil, ?_, le_rfl, ?_⟩ <;> rintro st ⟨⟩
  have h := Runs.run_invariant (fun _ _ _ h hC hs => forward_step h hC hs) hstart hinstalls hrun
  exact ⟨h.mono, h.start.2⟩

/-- A run that installs a list at the bound it holds. -/
def forwardRun : List Label :=
  let v : View := ⟨ntpTime 2285000000, true, ntpTime 2285000000, 0⟩
  [.view v, .save .ok, .skip, .job 0, .result (.object list1972), .view v, .begin_, .grant v false,
    .receive, .save .ok]

/-- That run saves twice, with one bound. -/
theorem saved_bounds_forward_install :
    ∃ w, Runs.run (step firstBytes (engineAccepts firstBytes) (.seed .nist)) (World.start .empty)
        forwardRun = some w ∧ w.saves.length = 2 ∧
      (w.saves.map (·.utcBound)).Pairwise (fun later earlier => earlier ≤ later) := by
  have h : (Runs.run (step firstBytes (engineAccepts firstBytes) (.seed .nist)) (World.start .empty)
      forwardRun).map (·.saves.length) = some 2 := by
    decide +kernel
  obtain ⟨w, hw, hlen⟩ := Option.map_eq_some_iff.mp h
  exact ⟨w, hw, hlen, (saved_bounds_forward _ _ _ _ _ w (by decide +kernel) hw).1⟩

/-- The views that a run reads: those of the updater and those that the engine grants
requests on. -/
def views (ls : List Label) : List View :=
  ls.filterMap fun
    | .view v => some v
    | .grant v _ => some v
    | _ => none

/-- Half a second, in nanoseconds. -/
def halfSecond : ℤ := 500000000

/-- A seed check half a second after the published bound, then an installation within
the tolerated second before that check. -/
def setbackRun : List Label :=
  let t := ntpTime 2285000000
  let v₁ : View := ⟨t, true, t, 0⟩
  let v₂ : View := ⟨t + halfSecond, true, t, 0⟩
  [.view v₁, .save .ok, .skip, .job 0, .result .unchanged, .view v₂,
    .view v₁, .save .ok, .skip, .job 0, .result (.object list1972), .view v₁, .begin_,
    .grant v₁ false, .receive, .save .ok]

/-- The bound does move backward: the views have a nondecreasing bound, no bound is more
than a second ahead of a known reading, and yet the last save has an earlier bound than
the one before. -/
theorem saved_bounds_backward :
    let vs := views setbackRun
    (State.empty.utcBound :: vs.map (·.utcBound)).Pairwise (· ≤ ·) ∧
    (∀ v ∈ vs, v.known = true → v.utcBound ≤ v.now + second) ∧
    (Runs.run (step firstBytes (engineAccepts firstBytes) (.seed .nist)) (World.start .empty)
        setbackRun).map (fun w => w.saves.map (·.utcBound)) =
      some [ntpTime 2285000000, ntpTime 2285000000 + halfSecond, ntpTime 2285000000] := by
  decide +kernel

end Carillon.Leap
