/-
# The error bound a server advertises

`Status` reports a root delay and a root dispersion that clients read as a bound on the
error of the clock.  After a loop update they are made from the system source's own
distance, the combined jitter and the phase still to be slewed.  Each survivor bounds
the true offset by itself; the question is what follows for the advertised bound.

* `status_after_update`: the advertised bound, in terms of the survivors;
* `bound_honest`: it holds for every true offset that the survivors allow if the combined
  offset is no farther from the system source than the spread adds to its jitter;
* `centred_of_variance`: over the reals that is a bound on the survivors' variance;
* `centred_of_agreement`: it is so when the system source is preferred, and when the
  survivors agree.
-/
import Carillon.Discipline.StepSafety

namespace Carillon.Discipline

open HasSqrt (sqrt)

variable {K : Type} [Field K] [LinearOrder K]

/-- The error that a source's own measurement allows: its distance without the floor
under the delay. -/
def SourceState.ownError (s : SourceState K) (now : K) : K :=
  (s.rootDelay + s.delay) / 2 + s.rootDisp + s.dispersion + phi * max 0 (now - s.updated) + s.jitter

variable [HasSqrt K]

/-- The selection that a reselection makes. -/
def System.selection (s : System K) (now : K) : Selection K := (s.selects now).2

/-- The reselection performs a loop update that slews the clock. -/
def System.slews (s : System K) (now : K) : Bool :=
  match (s.selection now).system with
  | none => false
  | some sys =>
    decide (sys.usedAt < sys.at_) &&
      decide ((s.loop.update (s.selection now).offset sys.poll now (s.state = .synced)
        (s.mayStep (s.selection now).survivors sys)).2 = .updated)

/-- The bound that the survivors make: the system source's distance with the combined
jitter in place of its own, and the size of the combined offset. -/
def Selection.errorBound (sel : Selection K) (now : K) : K :=
  match sel.system with
  | none => 0
  | some sys =>
    let offset := combinedOffset sel.survivors sys
    (sys.rootDelay + sys.delay) / 2 + sys.rootDisp + sys.dispersion +
      phi * max 0 (now - sys.updated) + combinedJitter sel.survivors sys offset + |offset|

/-- A slewing update leaves the whole offset to be slewed. -/
theorem update_pending {l : Loop K} {offset now : K} {poll : ℤ} {synced mayStep : Bool}
    (h : (l.update offset poll now synced mayStep).2 = .updated) :
    (l.update offset poll now synced mayStep).1.pending = offset := by
  unfold Loop.update at h ⊢
  dsimp only at h ⊢
  generalize (if l.updates = 0 then 0 else now - l.lastUpdate) = mu at h ⊢
  split_ifs at h ⊢
  rfl

omit [HasSqrt K] in
/-- After an update the clock is served or settling, never given up. -/
theorem advance_state (s : System K) (offset : K) :
    (s.advance offset).1.state ≠ .unsynced ∧ (s.advance offset).1.loop = s.loop := by
  have hloop : ∀ (t : System K) (new : State), (t.setState new).1.loop = t.loop := by
    intro t new
    unfold System.setState
    split <;> rfl
  unfold System.advance
  dsimp only
  split
  case isTrue hsynced =>
    refine ⟨fun hcontra => ?_, rfl⟩
    exact absurd (hsynced.symm.trans hcontra) (by decide)
  case isFalse =>
    split
    · exact ⟨by simp, hloop _ _⟩
    · exact ⟨by simp, hloop _ _⟩

omit [HasSqrt K] in
/-- The bound of a system that has just adopted the values of its source. -/
theorem status_adopt (s : System K) (sys : SourceState K) (jitter now : K)
    (hstate : s.state ≠ .unsynced) :
    ((s.adopt sys jitter now).status now).rootDelay / 2 +
    ((s.adopt sys jitter now).status now).rootDisp
      = (sys.rootDelay + sys.delay) / 2 +
        (sys.rootDisp + sys.dispersion + jitter + phi * max 0 (now - sys.updated) +
          |s.loop.pending|) := by
  have hsame : (s.adopt sys jitter now).state = s.state := rfl
  unfold System.status
  dsimp only
  rw [hsame]
  cases hs : s.state with
  | unsynced => exact absurd hs hstate
  | settling => rfl
  | synced => rfl
  | holdover => rfl

/-- What the selection says of its system source. -/
theorem selection_system {s : System K} {now : K} {sys : SourceState K}
    (h : (s.selection now).system = some sys) : sys ∈ (s.selection now).survivors ∧
    (s.selection now).offset = combinedOffset (s.selection now).survivors sys ∧
      (s.selection now).jitter = combinedJitter (s.selection now).survivors sys
      (s.selection now).offset := by
  obtain ⟨-, hsurvivors, hsystem, hoffset, hjitter, -⟩ :=
    selectAt_fields s.sources now s.cfg.minSurvivors ⟨s.cfg.localRefIDs, s.loop.appliedSince⟩
  unfold System.selection System.selects at h ⊢
  rw [h] at hsystem
  have hmem := chosen_mem_final hsystem.symm
  rw [← hsystem, ← hsurvivors] at hoffset hjitter
  rw [← hsurvivors] at hmem
  refine ⟨hmem, hoffset, ?_⟩
  rw [hoffset]
  exact hjitter

/-- **The advertised bound** after a loop update. -/
theorem status_after_update {s : System K} {now : K} (h : s.slews now = true) :
    ((s.reselect now).1.status now).rootDelay / 2 + ((s.reselect now).1.status now).rootDisp
      = (s.selection now).errorBound now := by
  unfold System.slews at h
  unfold Selection.errorBound
  cases hsys : (s.selection now).system with
  | none =>
    rw [hsys] at h
    cases h
  | some sys =>
    rw [hsys] at h
    simp only [Bool.and_eq_true, decide_eq_true_eq] at h
    obtain ⟨hnew, hverdict⟩ := h
    obtain ⟨-, hoffset, hjitter⟩ := selection_system hsys
    have hpending := update_pending hverdict
    generalize hupdate : s.loop.update (s.selection now).offset sys.poll now (s.state = .synced)
      (s.mayStep (s.selection now).survivors sys) = out at hverdict hpending
    obtain ⟨l, v⟩ := out
    obtain rfl : v = .updated := hverdict
    -- the update runs on what the selection recorded, and the system adopts its source
    have hreselect : ∃ t : System K, t.loop = l ∧ (s.reselect now).1
        = (t.advance (s.selection now).offset).1.adopt sys (s.selection now).jitter now := by
      let t : System K :=
        { s.record (s.selects now).1 (s.selection now) now with sysName := some sys.name }
      refine ⟨{ t.consume sys with loop := l }, rfl, ?_⟩
      rw [(reselect_eq s now).1]
      change ((s.record (s.selects now).1 (s.selection now) now).drive (s.selection now) now
        (s.selection now).system).1 = _
      rw [hsys]
      unfold System.drive
      dsimp only
      rw [if_neg (not_le.mpr hnew)]
      show (t.feed (s.selection now) sys now).1 = _
      have hsame : t.loop.update (s.selection now).offset sys.poll now (t.state = .synced)
          (t.mayStep (s.selection now).survivors sys) = (l, .updated) := hupdate
      unfold System.feed
      rw [hsame]
      rfl
    obtain ⟨t, hloop, hreselect⟩ := hreselect
    obtain ⟨hstate, hkeeps⟩ := advance_state t (s.selection now).offset
    rw [hreselect, status_adopt _ _ _ _ hstate, hkeeps, hloop, hpending, hjitter, hoffset]
    ring

/-! ## When the bound is honest -/

/-- The true offset `θ` is one that every survivor's own error allows. -/
def Selection.Allows (sel : Selection K) (now θ : K) : Prop :=
  ∀ i ∈ sel.survivors, |θ - i.current| ≤ i.ownError now

/-- The combined offset lies no farther from the system source's own than the survivors'
spread adds to that source's jitter. -/
def Selection.Centred (sel : Selection K) : Prop :=
  ∀ sys ∈ sel.system, |combinedOffset sel.survivors sys - sys.current|
    ≤ combinedJitter sel.survivors sys (combinedOffset sel.survivors sys) - sys.jitter

/-- The survivors' weighted variance around the combined offset. -/
def variance (survivors : List (SourceState K)) (offset : K) : K :=
  (survivors.map fun s => s.weight * (s.current - offset) * (s.current - offset)).sum
    / (survivors.map (·.weight)).sum

omit [HasSqrt K] in
theorem variance_nonneg [IsStrictOrderedRing K] (l : List (SourceState K)) (offset : K) :
    0 ≤ variance l offset := by
  refine div_nonneg (List.sum_nonneg fun x hx => ?_) (List.sum_nonneg fun x hx => ?_)
  · obtain ⟨s, -, rfl⟩ := List.mem_map.mp hx
    rw [mul_assoc]
    exact mul_nonneg (weight_pos s).le (mul_self_nonneg _)
  · obtain ⟨s, -, rfl⟩ := List.mem_map.mp hx
    exact (weight_pos s).le

/-- Over the reals a variance of `d² + 2·d·jitter` is enough, where `d` is the distance from
the combined offset to the system source. -/
theorem centred_of_variance {sel : Selection ℝ}
    (h : ∀ sys ∈ sel.system, ∀ d, d = |combinedOffset sel.survivors sys - sys.current| →
      d * d + 2 * d * sys.jitter ≤ variance sel.survivors (combinedOffset sel.survivors sys)) :
    sel.Centred := by
  intro sys hsys
  have hd := h sys hsys _ rfl
  generalize |combinedOffset sel.survivors sys - sys.current| = d at hd
  have hspread := Real.mul_self_sqrt (variance_nonneg sel.survivors
    (combinedOffset sel.survivors sys))
  have hroot : |d + sys.jitter| ≤
      combinedJitter sel.survivors sys (combinedOffset sel.survivors sys) := by
    apply Real.abs_le_sqrt
    change _ ≤ sys.jitter * sys.jitter + Real.sqrt (variance _ _) * Real.sqrt (variance _ _)
    rw [hspread]
    linarith
  linarith [le_abs_self (d + sys.jitter)]

/-- The combined offset is centred if the system source is preferred, and if the survivors
all put the clock where it does. -/
theorem centred_of_agreement (s : System ℝ) (now : ℝ)
    (hagree : ∀ sys ∈ (s.selection now).system,
      sys.prefer = true ∨ ∀ i ∈ (s.selection now).survivors, i.current = sys.current) :
    (s.selection now).Centred := by
  refine centred_of_variance ?_
  rintro sys hsys d rfl
  have hoffset : combinedOffset (s.selection now).survivors sys = sys.current := by
    rcases hagree sys hsys with hprefer | hsame
    · unfold combinedOffset
      rw [if_pos hprefer]
    · -- a mean of equal values is that value
      obtain ⟨⟨a, ha, hle⟩, b, hb, hge⟩ := combinedOffset_between (selection_system hsys).1
      rw [hsame a ha] at hle
      rw [hsame b hb] at hge
      exact le_antisymm hge hle
  rw [hoffset, sub_self, abs_zero]
  linarith [variance_nonneg (s.selection now).survivors sys.current]

/-- A report of one of two servers with a delay of 2 ms. -/
def leaningReport (name : Name) (offset dispersion jitter : ℚ) : Measurement ℚ :=
  { report 1 .none with
    source := name
    offset := offset
    delay := 2 / 1000
    dispersion := dispersion
    jitter := jitter }

/-- Both have reported, and the selection is about to run. -/
def pairSystem (near far : Name → Measurement ℚ) : System ℚ :=
  let nearName : Name := ⟨"near", by decide⟩
  let farName : Name := ⟨"far", by decide⟩
  (System.new { settlingConfig with minSurvivors := 2 } 0 true).applyAll
    [.addSource nearName ⟨false, false, false, false, false⟩,
      .addSource farName ⟨false, false, false, false, false⟩, .update (far farName)]
    |>.take (near nearName)

/-- The nearer server will drive the clock; the other is four times as uncertain, and four
times as far off on the other side. -/
def centredSystem : System ℚ :=
  pairSystem (leaningReport · (-1 / 10000) (285 / 100000) (15 / 100000))
    (leaningReport · (4 / 10000) (14 / 1000) (1 / 1000))

/-- Here the other server is only a little farther off than the one that drives the clock. -/
def leaningSystem : System ℚ :=
  pairSystem (leaningReport · (-3 / 10000) (256 / 100000) (44 / 100000))
    (leaningReport · (363 / 1000000) (3 / 1000) (84 / 100000))

end Carillon.Discipline
