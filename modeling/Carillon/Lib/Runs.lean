/-
# Runs of a partial step function

A machine is given by a partial step function `step : σ → ι → Option σ`: the
label `ι` carries everything the environment decides, and `none` says that the
label is not enabled.  A run is the composition of steps over a list of labels.

* `run` composes the steps and stays executable;
* `Along step C s is` says that every step the run takes meets the condition `C`
  at the state it is taken from;
* `run_invariant` and `run_suffix` are the two induction rules: an invariant is kept
  by a run, and so is one that speaks about the labels still to come.
-/
import Mathlib.Order.Defs.PartialOrder

namespace Runs

variable {σ ι : Type*}

/-- The state a run ends in, or `none` when one of its labels is not enabled. -/
def run (step : σ → ι → Option σ) : σ → List ι → Option σ
  | s, [] => some s
  | s, i :: is => (step s i).bind fun t => run step t is

/-- Every step of the run over `is` from `s` meets `C` where it is taken. -/
def Along (step : σ → ι → Option σ) (C : σ → ι → Prop) : σ → List ι → Prop
  | _, [] => True
  | s, i :: is => C s i ∧ ∀ t, step s i = some t → Along step C t is

/-- A decidable condition can be checked along a given run. -/
instance decidableAlong (step : σ → ι → Option σ) (C : σ → ι → Prop) [∀ s i, Decidable (C s i)] :
    (s : σ) → (is : List ι) → Decidable (Along step C s is)
  | _, [] => .isTrue trivial
  | s, i :: is =>
    match h : step s i with
    | none => decidable_of_iff (C s i) ⟨fun hC => ⟨hC, by simp [h]⟩, fun hA => hA.1⟩
    | some t =>
      have := decidableAlong step C t is
      decidable_of_iff (C s i ∧ Along step C t is)
        ⟨fun hA => ⟨hA.1, by rintro u hu; cases h.symm.trans hu; exact hA.2⟩,
          fun hA => ⟨hA.1, hA.2 t h⟩⟩

@[simp] theorem run_nil (step : σ → ι → Option σ) (s : σ) : run step s [] = some s := rfl

theorem run_cons (step : σ → ι → Option σ) (s : σ) (i : ι) (is : List ι) :
    run step s (i :: is) = (step s i).bind fun t => run step t is := rfl

variable {step : σ → ι → Option σ}

/-- A nonempty run takes its first step and goes on from there. -/
theorem run_cons_eq_some {s t : σ} {i : ι} {is : List ι} :
    run step s (i :: is) = some t ↔ ∃ u, step s i = some u ∧ run step u is = some t := by
  rw [run_cons, Option.bind_eq_some_iff]

/-- A run in two parts. -/
theorem run_append {s t : σ} {is js : List ι} :
    run step s (is ++ js) = some t ↔ ∃ u, run step s is = some u ∧ run step u js = some t := by
  induction is generalizing s with
  | nil => simp
  | cons i is ih =>
      rw [List.cons_append, run_cons_eq_some]
      constructor
      · rintro ⟨v, hv, hrun⟩
        obtain ⟨u, hu, hrest⟩ := ih.mp hrun
        exact ⟨u, run_cons_eq_some.mpr ⟨v, hv, hu⟩, hrest⟩
      · rintro ⟨u, hu, hrest⟩
        obtain ⟨v, hv, hrun⟩ := run_cons_eq_some.mp hu
        exact ⟨v, hv, ih.mpr ⟨u, hrun, hrest⟩⟩

variable {C : σ → ι → Prop}

/-- A condition that holds of every step holds along every run. -/
theorem along_of_forall (h : ∀ s i, C s i) (s : σ) (is : List ι) :
    Along step C s is := by
  induction is generalizing s with
  | nil => trivial
  | cons i is ih => exact ⟨h s i, fun t _ => ih t⟩

/-- A condition that every label of the run meets holds along it. -/
theorem along_of_mem {is : List ι} (h : ∀ i ∈ is, ∀ s, C s i) (s : σ) :
    Along step C s is := by
  induction is generalizing s with
  | nil => trivial
  | cons i is ih =>
      exact ⟨h i List.mem_cons_self s,
        fun t _ => ih (fun j hj => h j (List.mem_cons_of_mem i hj)) t⟩

/-- A condition along a run in two parts. -/
theorem along_append {s : σ} {is js : List ι} :
    Along step C s (is ++ js) ↔
      Along step C s is ∧ ∀ t, run step s is = some t → Along step C t js := by
  induction is generalizing s with
  | nil => simp [Along]
  | cons i is ih =>
      rw [List.cons_append, Along, Along, and_assoc]
      refine and_congr_right fun _ => ?_
      constructor
      · intro h
        refine ⟨fun u hu => (ih.mp (h u hu)).1, fun t ht => ?_⟩
        obtain ⟨u, hu, hrun⟩ := run_cons_eq_some.mp ht
        exact (ih.mp (h u hu)).2 t hrun
      · intro h u hu
        exact ih.mpr ⟨h.1 u hu, fun t ht => h.2 t (run_cons_eq_some.mpr ⟨u, hu, ht⟩)⟩

/-- **Invariant rule.**  What every admissible step keeps, every admissible run
keeps. -/
theorem run_invariant {I : σ → Prop} (hstep : ∀ s i t, I s → C s i → step s i = some t → I t)
    {s t : σ} {is : List ι} (hs : I s) (hC : Along step C s is) (hrun : run step s is = some t) :
    I t := by
  induction is generalizing s with
  | nil =>
      rw [run_nil, Option.some.injEq] at hrun
      exact hrun ▸ hs
  | cons i is ih =>
      obtain ⟨u, hu, hrun⟩ := run_cons_eq_some.mp hrun
      exact ih (hstep s i u hs hC.1 hu) (hC.2 u hu) hrun

/-- **Suffix rule.**  The invariant may speak about the labels that are still to come. -/
theorem run_suffix {I : σ → List ι → Prop}
    (hstep : ∀ s i is t, I s (i :: is) → step s i = some t → I t is) {s t : σ} {is : List ι}
    (hs : I s is) (hrun : run step s is = some t) : I t [] := by
  induction is generalizing s with
  | nil =>
      rw [run_nil, Option.some.injEq] at hrun
      exact hrun ▸ hs
  | cons i is ih =>
      obtain ⟨u, hu, hrun⟩ := run_cons_eq_some.mp hrun
      exact ih (hstep s i is u hs hu) hrun

end Runs
