/-
# The drift file's writer

The engine hands frequencies to a worker through a channel with one place
(`driftWriter` in `engine.go`).  `offer` never waits: it tries to send, and when the place
is taken it takes the older candidate out and tries again.  The two operations are
separate, and the worker may receive between them.

* The worker writes values in the order they were offered, in every interleaving.
* `offer` returns without having sent when it finds the place taken and then empty, so
  the newest value can be lost.  When the worker does not receive between the two
  operations, the last value written is the last one offered.

The frequencies are those `maybeWriteDrift` has checked; nothing here depends on them.
-/
import Carillon.Lib.Channel
import Carillon.Lib.Runs
import Mathlib.Data.List.Chain
import Mathlib.Data.Rat.Defs

namespace Carillon

variable {K : Type}

/-! ## The two goroutines -/

/-- Where the engine is in `offer`. -/
inductive OfferPc (K : Type) where
  | idle
  /-- Before the send. -/
  | sending (ppm : K)
  /-- The send found the place taken; before the receive. -/
  | replacing (ppm : K)

/-- Where the worker is in `run`. -/
inductive WorkerPc (K : Type) where
  | receiving
  | writing (ppm : K)
  | done

/-- What the worker logs. -/
inductive DriftNotice where
  /-- "cannot write drift file" -/
  | cannotWrite
  /-- "drift file writable again" -/
  | writableAgain
  deriving DecidableEq

/-- `driftWriter`, with the values offered and the values given to `write`. -/
structure DriftWriter (K : Type) where
  work : Channel K 1
  closed : Bool
  offering : OfferPc K
  worker : WorkerPc K
  errShown : Bool
  log : List DriftNotice
  offered : List K
  written : List K

/-- The atomic steps; a write tells whether it succeeds. -/
inductive DriftLabel (K : Type) where
  | offer (ppm : K)
  | trySend
  | replace
  | receive
  | write (ok : Bool)
  | close
  | finish

/-- What the worker says about a write: the failures are announced once. -/
def DriftWriter.note (w : DriftWriter K) (ok : Bool) : DriftWriter K :=
  if ok = w.errShown then
    { w with errShown := !ok, log := w.log ++ [if ok then .writableAgain else .cannotWrite] }
  else w

/-- One atomic step. -/
def DriftWriter.step (w : DriftWriter K) : DriftLabel K → Option (DriftWriter K)
  | .offer ppm => match w.offering, w.closed with
    | .idle, false => some { w with offering := .sending ppm, offered := w.offered ++ [ppm] }
    | _, _ => none
  | .trySend => match w.offering with
    | .sending ppm => match w.work.trySend ppm with
      | some work => some { w with work := work, offering := .idle }
      | none => some { w with offering := .replacing ppm }
    | _ => none
  | .replace => match w.offering with
    | .replacing ppm => match w.work.recv with
      | some (_, work) => some { w with work := work, offering := .sending ppm }
      | none => some { w with offering := .idle }
    | _ => none
  | .receive => match w.worker, w.work.recv with
    | .receiving, some (ppm, work) => some { w with work := work, worker := .writing ppm }
    | _, _ => none
  | .write ok => match w.worker with
    | .writing ppm => some { w.note ok with worker := .receiving, written := w.written ++ [ppm] }
    | _ => none
  | .close => match w.offering, w.closed with
    | .idle, false => some { w with closed := true }
    | _, _ => none
  | .finish => match w.worker, w.work.recv, w.closed with
    | .receiving, none, true => some { w with worker := .done }
    | _, _, _ => none

/-- `newDriftWriter`. -/
def DriftWriter.new : DriftWriter K where
  work := .empty
  closed := false
  offering := .idle
  worker := .receiving
  errShown := false
  log := []
  offered := []
  written := []

/-! ## What a step can do -/

/-- The candidate of the offer under way. -/
def OfferPc.candidate : OfferPc K → List K
  | .idle => []
  | .sending ppm | .replacing ppm => [ppm]

/-- The value in the worker's hands. -/
def WorkerPc.candidate : WorkerPc K → List K
  | .writing ppm => [ppm]
  | .receiving | .done => []

/-- The offer under way has found the place taken and not yet emptied it. -/
def OfferPc.replaces : OfferPc K → Bool
  | .replacing _ => true
  | .idle | .sending _ => false

/-- The values on their way into the file, the oldest first. -/
def DriftWriter.pipeline (w : DriftWriter K) : List K :=
  w.written ++ w.worker.candidate ++ w.work.contents ++ w.offering.candidate

/-- What a step does to the values. -/
inductive DriftWriter.Moves (w : DriftWriter K) : DriftLabel K → DriftWriter K → Prop
  | offer (ppm : K) (hidle : w.offering = .idle) :
      Moves w (.offer ppm) { w with offering := .sending ppm, offered := w.offered ++ [ppm] }
  | send {ppm : K} (hpc : w.offering = .sending ppm) (hroom : w.work.buf.length < 1) :
      Moves w .trySend { w with work := w.work.send ppm, offering := .idle }
  | taken {ppm : K} (hpc : w.offering = .sending ppm) (hfull : 1 ≤ w.work.buf.length) :
      Moves w .trySend { w with offering := .replacing ppm }
  | replace {ppm old : K} {work : Channel K 1} (hpc : w.offering = .replacing ppm)
      (hrecv : w.work.recv = some (old, work)) :
      Moves w .replace { w with work := work, offering := .sending ppm }
  | giveUp {ppm : K} (hpc : w.offering = .replacing ppm) (hempty : w.work.contents = []) :
      Moves w .replace { w with offering := .idle }
  | receive {ppm : K} {work : Channel K 1} (hpc : w.worker = .receiving)
      (hrecv : w.work.recv = some (ppm, work)) :
      Moves w .receive { w with work := work, worker := .writing ppm }
  | write {ppm : K} (ok : Bool) (hpc : w.worker = .writing ppm) :
      Moves w (.write ok)
        { w.note ok with worker := .receiving, written := w.written ++ [ppm] }
  | close : Moves w .close { w with closed := true }
  | finish (hpc : w.worker = .receiving) : Moves w .finish { w with worker := .done }

variable {w w' : DriftWriter K} {l : DriftLabel K}

theorem drift_step_moves (h : w.step l = some w') :
    w.Moves l w' := by
  cases l with
  | offer ppm =>
    simp only [DriftWriter.step] at h
    split at h
    · next hpc _ => exact Option.some.inj h ▸ .offer ppm hpc
    · cases h
  | trySend =>
    simp only [DriftWriter.step] at h
    split at h
    · next ppm hpc =>
      split at h
      · next work hsend =>
        obtain ⟨hroom, rfl⟩ := Channel.trySend_eq_some.mp hsend
        exact Option.some.inj h ▸ .send hpc hroom
      · next hnone => exact Option.some.inj h ▸ .taken hpc (Channel.trySend_eq_none.mp hnone)
    · cases h
  | replace =>
    simp only [DriftWriter.step] at h
    split at h
    · next ppm hpc =>
      split at h
      · next old work hrecv => exact Option.some.inj h ▸ .replace hpc hrecv
      · next hnone => exact Option.some.inj h ▸ .giveUp hpc (Channel.recv_eq_none.mp hnone)
    · cases h
  | receive =>
    simp only [DriftWriter.step] at h
    split at h
    · next hpc hrecv => exact Option.some.inj h ▸ .receive hpc hrecv
    · cases h
  | write ok =>
    simp only [DriftWriter.step] at h
    split at h
    · next hpc => exact Option.some.inj h ▸ .write ok hpc
    · cases h
  | close =>
    simp only [DriftWriter.step] at h
    split at h
    · exact Option.some.inj h ▸ .close
    · cases h
  | finish =>
    simp only [DriftWriter.step] at h
    split at h
    · next hpc _ _ => exact Option.some.inj h ▸ .finish hpc
    · cases h

@[simp] theorem note_offering (w : DriftWriter K) (ok : Bool) :
    (w.note ok).offering = w.offering := by
  unfold DriftWriter.note
  split <;> rfl

@[simp] theorem note_work (w : DriftWriter K) (ok : Bool) : (w.note ok).work = w.work := by
  unfold DriftWriter.note
  split <;> rfl

@[simp] theorem note_offered (w : DriftWriter K) (ok : Bool) : (w.note ok).offered = w.offered := by
  unfold DriftWriter.note
  split <;> rfl

/-- What a step does to the values on their way: an offer adds one at the end, a
replacement or an offer that gives up removes one, and every other step only moves them
on. -/
theorem pipeline_moves (hmove : w.Moves l w') :
    (∃ ppm, w'.offered = w.offered ++ [ppm] ∧ w'.pipeline = w.pipeline ++ [ppm]) ∨
      w'.offered = w.offered ∧ w'.pipeline.Sublist w.pipeline := by
  cases hmove with
  | offer ppm hidle =>
    left
    exact ⟨ppm, rfl, by simp [DriftWriter.pipeline, hidle, OfferPc.candidate]⟩
  | send hpc hroom =>
    right
    refine ⟨rfl, ?_⟩
    simp [DriftWriter.pipeline, hpc, OfferPc.candidate]
  | taken hpc hfull =>
    right
    exact ⟨rfl, by simp [DriftWriter.pipeline, hpc, OfferPc.candidate]⟩
  | replace hpc hrecv =>
    right
    refine ⟨rfl, ?_⟩
    simp [DriftWriter.pipeline, hpc, OfferPc.candidate, Channel.contents_recv hrecv]
  | giveUp hpc hempty =>
    right
    exact ⟨rfl, by simp [DriftWriter.pipeline, hpc, OfferPc.candidate]⟩
  | receive hpc hrecv =>
    right
    refine ⟨rfl, ?_⟩
    simp [DriftWriter.pipeline, hpc, WorkerPc.candidate, Channel.contents_recv hrecv]
  | write ok hpc =>
    right
    refine ⟨note_offered w ok, ?_⟩
    simp [DriftWriter.pipeline, hpc, WorkerPc.candidate]
  | close =>
    right
    exact ⟨rfl, List.Sublist.refl _⟩
  | finish hpc =>
    right
    exact ⟨rfl, by simp [DriftWriter.pipeline, hpc, WorkerPc.candidate]⟩

/-- The values on their way are in the order in which they were offered. -/
theorem pipeline_sublist_moves (h : w.pipeline.Sublist w.offered) (hmove : w.Moves l w') :
    w'.pipeline.Sublist w'.offered := by
  rcases pipeline_moves hmove with ⟨ppm, hoffered, hpipeline⟩ | ⟨hoffered, hpipeline⟩
  · rw [hoffered, hpipeline]
    exact h.append_right [ppm]
  · rw [hoffered]
    exact hpipeline.trans h

/-! ## The newest value -/

/-- The worker does not receive while an offer stands between its failed send and its
receive. -/
def DriftWriter.Uncontested (w : DriftWriter K) : DriftLabel K → Prop
  | .receive => w.offering.replaces = false
  | _ => True

instance (w : DriftWriter K) (l : DriftLabel K) : Decidable (w.Uncontested l) :=
  match l with
  | .receive => inferInstanceAs (Decidable (_ = _))
  | .offer _ | .trySend | .replace | .write _ | .close | .finish => .isTrue trivial

/-- The newest value offered is on its way or written; an offer that is to empty the place
finds something there. -/
structure DriftWriter.Newest (w : DriftWriter K) : Prop where
  last : w.pipeline.getLast? = w.offered.getLast?
  taken : w.offering.replaces = true → w.work.contents ≠ []

theorem newest_moves (h : w.Newest) (hmove : w.Moves l w') (huncontested : w.Uncontested l) :
    w'.Newest := by
  have hlast := h.last
  cases hmove with
  | offer ppm hidle =>
    refine ⟨?_, by simp [OfferPc.replaces]⟩
    simp [DriftWriter.pipeline, OfferPc.candidate]
  | send hpc hroom =>
    refine ⟨?_, by simp [OfferPc.replaces]⟩
    rw [← hlast]
    simp [DriftWriter.pipeline, hpc, OfferPc.candidate]
  | taken hpc hfull =>
    refine ⟨?_, fun _ hempty => ?_⟩
    · rw [← hlast]
      simp [DriftWriter.pipeline, hpc, OfferPc.candidate]
    · have := w.work.length_buf_le
      rw [show w.work.contents = [] from hempty] at this
      exact absurd (hfull.trans this) (by simp)
  | replace hpc hrecv =>
    refine ⟨?_, by simp [OfferPc.replaces]⟩
    rw [← hlast]
    simp [DriftWriter.pipeline, hpc, OfferPc.candidate]
  | giveUp hpc hempty =>
    exact absurd hempty (h.taken (by simp [hpc, OfferPc.replaces]))
  | receive hpc hrecv =>
    refine ⟨?_, fun hreplaces => absurd (huncontested.symm.trans hreplaces) (by simp)⟩
    rw [← hlast]
    simp [DriftWriter.pipeline, hpc, WorkerPc.candidate, Channel.contents_recv hrecv]
  | write ok hpc =>
    refine ⟨?_, by simpa using h.taken⟩
    rw [note_offered, ← hlast]
    simp [DriftWriter.pipeline, hpc, WorkerPc.candidate]
  | close => exact ⟨hlast, h.taken⟩
  | finish hpc =>
    refine ⟨?_, h.taken⟩
    rw [← hlast]
    simp [DriftWriter.pipeline, hpc, WorkerPc.candidate]

/-- No offer is under way, and the worker has drained the channel and written what it
received. -/
def DriftWriter.Drained (w : DriftWriter K) : Prop :=
  w.offering.candidate = [] ∧ w.work.contents = [] ∧ w.worker.candidate = []

/-- **The writer's order.**  In every interleaving the values written are a subsequence of
the values offered.  When no receive of the worker comes between the two operations of an
offer, the last value written is the last one offered, whenever the channel is drained. -/
theorem drift_keeps_newest (ls : List (DriftLabel K)) (w : DriftWriter K)
    (hw : Runs.run DriftWriter.step .new ls = some w) :
    w.written.Sublist w.offered ∧
      (Runs.Along DriftWriter.step DriftWriter.Uncontested .new ls → w.Drained →
        w.written.getLast? = w.offered.getLast?) := by
  constructor
  · have hpipeline : w.pipeline.Sublist w.offered :=
      Runs.run_invariant (C := fun _ _ => True) (I := fun w => w.pipeline.Sublist w.offered)
        (fun _ _ _ hinv _ hstep => pipeline_sublist_moves hinv (drift_step_moves hstep))
        (List.Sublist.refl _) (Runs.along_of_forall (fun _ _ => trivial) _ ls) hw
    refine List.Sublist.trans ?_ hpipeline
    simp only [DriftWriter.pipeline, List.append_assoc]
    exact List.sublist_append_left _ _
  · rintro huncontested ⟨hoffering, hwork, hworker⟩
    have hnewest := Runs.run_invariant
      (fun _ _ _ hinv hC hstep => newest_moves hinv (drift_step_moves hstep) hC)
      ⟨rfl, by simp [DriftWriter.new, OfferPc.replaces]⟩ huncontested hw
    rw [← hnewest.last]
    simp [DriftWriter.pipeline, hoffering, hwork, hworker]

section Samples

/-- Two offers, the second of which replaces the first; then the worker writes. -/
def replacingOffers : List (DriftLabel ℚ) :=
  [.offer 1, .trySend, .offer 2, .trySend, .replace, .trySend, .receive, .write true]

/-- The first value is superseded, and the second is written. -/
theorem drift_keeps_newest_replacing :
    ∃ w, Runs.run DriftWriter.step .new replacingOffers = some w ∧ w.offered = [1, 2] ∧
      w.written = [2] ∧ w.written.Sublist w.offered ∧ w.written.getLast? = w.offered.getLast? := by
  have h : (Runs.run DriftWriter.step .new replacingOffers).map (fun w => (w.offered, w.written,
      w.offering.candidate, w.work.contents, w.worker.candidate)) =
        some ([1, 2], [2], [], [], []) := by
    decide +kernel
  obtain ⟨w, hw, h⟩ := Option.map_eq_some_iff.mp h
  simp only [Prod.mk.injEq] at h
  obtain ⟨hoffered, hwritten, hdrained⟩ := h
  have hnewest := drift_keeps_newest replacingOffers w hw
  exact ⟨w, hw, hoffered, hwritten, hnewest.1, hnewest.2 (by decide +kernel) hdrained⟩

/-- The worker receives the first value when the second offer has found the place taken. -/
def contestedOffers : List (DriftLabel ℚ) :=
  [.offer 1, .trySend, .offer 2, .trySend, .receive, .replace, .write true]

/-- The second offer then returns without having sent: the worker has drained the channel,
and the last value written is the first one. -/
theorem newest_value_lost :
    ∃ w, Runs.run DriftWriter.step .new contestedOffers = some w ∧ w.Drained ∧
      w.offered = [1, 2] ∧ w.written = [1] := by
  have h : (Runs.run DriftWriter.step .new contestedOffers).map (fun w => (w.offered, w.written,
      w.offering.candidate, w.work.contents, w.worker.candidate)) =
        some ([1, 2], [1], [], [], []) := by
    decide +kernel
  obtain ⟨w, hw, h⟩ := Option.map_eq_some_iff.mp h
  simp only [Prod.mk.injEq] at h
  obtain ⟨hoffered, hwritten, hdrained⟩ := h
  exact ⟨w, hw, hdrained, hoffered, hwritten⟩

end Samples

end Carillon
