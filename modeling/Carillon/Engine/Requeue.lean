/-
# What `dropQueued` does to the other sources

`dropQueued` is meant to remove one source's measurements and to preserve the order of the
others.  It receives what was queued and puts the others back at the end of the queue, one
send at a time, while the other goroutines go on sending.  What they send meanwhile, and
what was waiting for room when it began, comes to stand before what is put back; and what
finds no room is dropped.

* `dropQueued_keeps_others`: in a run in which no source that has a measurement to be put
  back sends before it is back, and nobody takes the room, every source's measurements
  leave the queue in the order they were sent, and none is lost.
* `requeued_out_of_order`: otherwise the engine receives a source's measurements in the
  wrong order, or loses one.
-/
import Carillon.Engine.Queue

namespace Carillon

open Discipline (HasSqrt Measurement Name)
open Leap (Digest)

variable {K : Type}

/-! ## The order of one source's measurements -/

/-- The measurements of one source. -/
def ofSource (name : Name) (l : List (Sent K)) : List (Sent K) :=
  l.filter (·.source = name)

@[simp] theorem ofSource_append (name : Name) (l l' : List (Sent K)) :
    ofSource name (l ++ l') = ofSource name l ++ ofSource name l' := List.filter_append ..

variable {name : Name}

theorem ofSource_eq_nil {l : List (Sent K)} (h : ∀ v ∈ l, v.source ≠ name) :
    ofSource name l = [] := by
  apply List.filter_eq_nil_iff.mpr
  intro v hv
  simpa using h v hv

/-- Two lists without a common source can change places. -/
theorem ofSource_append_comm {l l' : List (Sent K)}
    (h : ∀ v ∈ l, ∀ w ∈ l', w.source ≠ v.source) (name : Name) :
    ofSource name (l ++ l') = ofSource name (l' ++ l) := by
  by_cases hl : ∃ v ∈ l, v.source = name
  · obtain ⟨v, hv, rfl⟩ := hl
    simp [ofSource_eq_nil (h v hv)]
  · push Not at hl
    simp [ofSource_eq_nil hl]

/-- What is queued or held back, in the order in which the engine will receive it. -/
def Runner.underway (s : Runner K) : List (Sent K) :=
  match s.pc with
  | .idle => s.meas.contents
  | .draining _ _ _ keep => keep ++ s.meas.contents
  | .refilling _ _ keep => s.meas.contents ++ keep

/-- Every source's measurements leave the queue in the order they were sent, and what has
not left is still to come. -/
def Runner.InOrder (s : Runner K) : Prop :=
  ∀ name, ofSource name (s.taken.map Prod.snd ++ s.underway) = ofSource name s.sent

/-! ## The condition -/

/-- The measurements of the other sources. -/
def others (name : Name) (l : List (Sent K)) : List (Sent K) :=
  l.filter (·.source ≠ name)

/-- What `dropQueued` puts back from now on, if it finds room. -/
def Runner.heldBack (s : Runner K) : List (Sent K) :=
  match s.pc with
  | .idle => []
  | .draining name _ left keep => keep ++ others name (s.meas.contents.take left)
  | .refilling _ _ keep => keep

/-- How many measurements the queue has to hold when the `dropQueued` under way is done. -/
def Runner.load (s : Runner K) : ℕ :=
  s.heldBack.length + (s.meas.contents.drop s.pc.left).length

/-- While `dropQueued` runs, no source sends that has a measurement held back, and there
is room for what is sent beside what is put back.  When it begins, no source has a
measurement in the buffer and waits to send another, and what waits fits beside what will
be put back. -/
def Runner.Undisturbed (s : Runner K) : RunnerLabel K → Prop
  | .send m => s.pc.purges = none ∨
      (∀ v ∈ s.heldBack, v.source ≠ m.source) ∧ s.load < queueCapacity
  | .takeStop => match s.reqs with
    | .stopped name _ :: _ =>
      (∀ v ∈ others name s.meas.buf, ∀ w ∈ s.meas.waiting, w.source ≠ v.source) ∧
        (others name s.meas.buf).length + s.meas.waiting.length ≤ queueCapacity
    | _ => True
  | _ => True

instance (s : Runner K) (l : RunnerLabel K) : Decidable (s.Undisturbed l) :=
  match l with
  | .send _ => inferInstanceAs (Decidable (_ ∨ _))
  | .takeStop => match h : s.reqs with
    | .stopped name _ :: _ => decidable_of_iff
        ((∀ v ∈ others name s.meas.buf, ∀ w ∈ s.meas.waiting, w.source ≠ v.source) ∧
          (others name s.meas.buf).length + s.meas.waiting.length ≤ queueCapacity)
        (by simp only [Runner.Undisturbed, h])
    | [] => .isTrue (by simp only [Runner.Undisturbed, h])
    | .restarting _ :: _ => .isTrue (by simp only [Runner.Undisturbed, h])
  | .ret _ | .reportStop _ | .reportRestart _ | .receive .. | .takeRestart .. | .drain | .putBack
  | .finishStop .. | .tick .. | .leapRequest .. => .isTrue trivial

/-! ## The invariant -/

/-- What `dropQueued` relies on: the sources it holds back measurements of have sent
nothing behind those, and there is room to put them back. -/
def Runner.Clear (s : Runner K) : Prop :=
  match s.pc with
  | .idle => True
  | .draining name _ left keep =>
    left ≤ s.meas.contents.length ∧ (∀ v ∈ keep, v.source ≠ name) ∧
      (∀ v ∈ s.heldBack, ∀ w ∈ s.meas.contents.drop left, w.source ≠ v.source) ∧
      s.load ≤ queueCapacity
  | .refilling _ _ _ => s.load ≤ queueCapacity

/-- The invariant of undisturbed runs. -/
structure Runner.Orderly (s : Runner K) : Prop where
  inOrder : s.InOrder
  clear : s.Clear
  lost : s.lost = []

theorem orderly_new (e : Engine K) : (Runner.new e).Orderly :=
  ⟨fun _ => rfl, trivial, rfl⟩

variable {s : Runner K}

/-- A send goes to the end of what is under way, or to its place before what is put back. -/
theorem orderly_send {m : Measurement K} (h : s.Orderly) (hundisturbed : s.Undisturbed (.send m)) :
    (s.send m).Orderly := by
  obtain ⟨horder, hclear, hlost⟩ := h
  match hpc : s.pc with
  | .idle =>
    refine ⟨fun name => ?_, ?_, hlost⟩
    · have := horder name
      simp only [Runner.underway, hpc, Runner.send, Channel.contents_send,
        ofSource_append] at this ⊢
      rw [← this, List.append_assoc]
    · simp only [Runner.Clear, Runner.send, hpc]
  | .draining stopped run left keep =>
    obtain ⟨hheld, hroom⟩ := hundisturbed.resolve_left (by simp [hpc, EnginePc.purges])
    simp only [Runner.heldBack, Runner.load, Runner.Clear, EnginePc.left, hpc] at hheld hroom hclear
    obtain ⟨hleft, hkeep, hapart, -⟩ := hclear
    refine ⟨fun name => ?_, ?_, hlost⟩
    · have := horder name
      simp only [Runner.underway, hpc, Runner.send, Channel.contents_send,
        ofSource_append] at this ⊢
      simp only [← this, List.append_assoc]
    · simp only [Runner.Clear, Runner.send, Runner.load, Runner.heldBack, EnginePc.left, hpc,
        Channel.contents_send, List.take_append_of_le_length hleft,
        List.drop_append_of_le_length hleft]
      refine ⟨by rw [List.length_append]; omega, hkeep, ?_, ?_⟩
      · intro v hv w hw
        rcases List.mem_append.mp hw with hw | hw
        · exact hapart v hv w hw
        · obtain rfl := List.mem_singleton.mp hw
          exact (hheld v hv).symm
      · simp only [List.length_append, List.length_singleton] at hroom ⊢
        omega
  | .refilling stopped run keep =>
    obtain ⟨hheld, hroom⟩ := hundisturbed.resolve_left (by simp [hpc, EnginePc.purges])
    simp only [Runner.heldBack, Runner.load, EnginePc.left, List.drop_zero, hpc] at hheld hroom
    refine ⟨fun name => ?_, ?_, hlost⟩
    · have := horder name
      have hcomm : ofSource name ([s.stamp m] ++ keep) = ofSource name (keep ++ [s.stamp m]) := by
        apply ofSource_append_comm
        intro v hv w hw
        obtain rfl := List.mem_singleton.mp hv
        exact hheld w hw
      simp only [Runner.underway, hpc, Runner.send, Channel.contents_send, ofSource_append]
        at this hcomm ⊢
      rw [← this, List.append_assoc (ofSource name s.meas.contents), hcomm]
      simp only [List.append_assoc]
    · simp only [Runner.Clear, Runner.send, Runner.load, Runner.heldBack, EnginePc.left,
        List.drop_zero, hpc, Channel.contents_send, List.length_append, List.length_singleton]
      omega

/-- A receive of the main loop takes what is first under way. -/
theorem orderly_receive {v : Sent K} {meas : Channel (Sent K) queueCapacity} (e : Engine K)
    (fate : Fate) (h : s.Orderly) (hpc : s.pc = .idle) (hrecv : s.meas.recv = some (v, meas)) :
    { s with engine := e, meas := meas, taken := s.taken ++ [(fate, v)] }.Orderly := by
  refine ⟨fun name => ?_, ?_, h.lost⟩
  · rw [← h.inOrder name]
    simp [Runner.underway, hpc, Channel.contents_recv hrecv]
  · simp only [Runner.Clear, hpc]

/-- `dropQueued` begins with the buffer to be received and the waiting senders behind it. -/
theorem orderly_takeStop {run : ℕ} {reqs : List Request} (h : s.Orderly) (hpc : s.pc = .idle)
    (hreqs : s.reqs = .stopped name run :: reqs) (hundisturbed : s.Undisturbed .takeStop) :
    { s with reqs := reqs, pc := .draining name run s.meas.buf.length [] }.Orderly := by
  simp only [Runner.Undisturbed, hreqs] at hundisturbed
  refine ⟨fun other => ?_, ?_, h.lost⟩
  · rw [← h.inOrder other]
    simp [Runner.underway, hpc]
  · simp only [Runner.Clear, Runner.load, Runner.heldBack, EnginePc.left, Channel.drop_contents,
      Channel.take_contents, List.nil_append]
    exact ⟨s.meas.length_buf_le, by simp, hundisturbed⟩

/-- A receive of `dropQueued` discards a measurement of the stopped source or holds one of
another source back, behind those it holds already. -/
theorem orderly_drain {run left : ℕ} {keep : List (Sent K)} (h : s.Orderly)
    (hpc : s.pc = .draining name run (left + 1) keep) :
    (s.drain name run left keep).Orderly := by
  obtain ⟨horder, hclear, hlost⟩ := h
  simp only [Runner.Clear, Runner.load, Runner.heldBack, EnginePc.left, hpc] at hclear
  obtain ⟨hleft, hkeep, hapart, hroom⟩ := hclear
  unfold Runner.drain
  split
  · next hnone =>
    rw [Channel.recv_eq_none.mp hnone] at hleft
    exact absurd hleft (by simp)
  · next v meas hrecv =>
    have hcontents := Channel.contents_recv hrecv
    have horder' : ∀ other, ofSource other (s.taken.map Prod.snd ++ (keep ++ v :: meas.contents))
        = ofSource other s.sent := by
      intro other
      rw [← horder other, Runner.underway, hpc, hcontents]
    rw [hcontents, List.length_cons] at hleft
    simp only [hcontents, List.take_succ_cons, List.drop_succ_cons] at hapart hroom
    split
    · next hsource =>
      -- nothing of the stopped source is held back, so its own order is kept
      have hfirst : ∀ other, ofSource other (keep ++ [v]) = ofSource other ([v] ++ keep) := by
        apply ofSource_append_comm
        intro u hu w hw
        obtain rfl := List.mem_singleton.mp hw
        exact hsource ▸ (hkeep u hu).symm
      rw [others, List.filter_cons_of_neg (by simp [hsource])] at hapart hroom
      refine ⟨fun other => ?_, ?_, hlost⟩
      · rw [← horder' other, List.append_cons keep v, ofSource_append other _ (_ ++ _),
          ofSource_append other (_ ++ _), hfirst other, ← ofSource_append, ← ofSource_append]
        simp [Runner.underway]
      · exact ⟨Nat.le_of_succ_le_succ hleft, hkeep, hapart, hroom⟩
    · next hsource =>
      rw [others, List.filter_cons_of_pos (by simpa using hsource),
        List.append_cons] at hapart hroom
      refine ⟨fun other => ?_, ?_, hlost⟩
      · rw [← horder' other]
        simp [Runner.underway]
      · refine ⟨Nat.le_of_succ_le_succ hleft, fun u hu => ?_, hapart, hroom⟩
        rcases List.mem_append.mp hu with hu | hu
        · exact hkeep u hu
        · obtain rfl := List.mem_singleton.mp hu
          exact hsource

/-- When everything is received, what is held back can go behind what was sent since. -/
theorem orderly_drained {run : ℕ} {keep : List (Sent K)} (h : s.Orderly)
    (hpc : s.pc = .draining name run 0 keep) :
    { s with pc := .refilling name run keep }.Orderly := by
  obtain ⟨horder, hclear, hlost⟩ := h
  simp only [Runner.Clear, Runner.load, Runner.heldBack, EnginePc.left, hpc, List.take_zero, others,
    List.filter_nil, List.append_nil, List.drop_zero] at hclear
  obtain ⟨-, -, hapart, hroom⟩ := hclear
  refine ⟨fun other => ?_, hroom, hlost⟩
  rw [← horder other]
  simp only [Runner.underway, hpc]
  rw [ofSource_append other _ (_ ++ _), ofSource_append other _ (keep ++ _),
    ofSource_append_comm hapart]

/-- There is room to put a measurement back. -/
theorem orderly_putBack {run : ℕ} {v : Sent K} {keep : List (Sent K)} (h : s.Orderly)
    (hpc : s.pc = .refilling name run (v :: keep)) :
    (s.putBack name run v keep).Orderly := by
  obtain ⟨horder, hclear, hlost⟩ := h
  simp only [Runner.Clear, Runner.load, Runner.heldBack, EnginePc.left, hpc, List.drop_zero,
    List.length_cons] at hclear
  have hbuf := s.meas.length_buf_le
  unfold Runner.putBack
  split
  · next meas hsend =>
    obtain ⟨-, rfl⟩ := Channel.trySend_eq_some.mp hsend
    refine ⟨fun other => ?_, ?_, hlost⟩
    · rw [← horder other]
      simp [Runner.underway, hpc]
    · simp only [Runner.Clear, Runner.load, Runner.heldBack, EnginePc.left, List.drop_zero,
        Channel.contents_send, List.length_append, List.length_singleton]
      omega
  · next hnone =>
    have := Channel.trySend_eq_none.mp hnone
    omega

/-- Every undisturbed step keeps the invariant. -/
theorem orderly_moves {s t : Runner K} {l : RunnerLabel K} (h : s.Orderly) (hmove : s.Moves l t)
    (hundisturbed : s.Undisturbed l) : t.Orderly := by
  cases hmove with
  | send _ => exact orderly_send h hundisturbed
  | receive e fate hpc hrecv _ => exact orderly_receive e fate h hpc hrecv
  | takeStop hpc hreqs _ => exact orderly_takeStop h hpc hreqs hundisturbed
  | drain hpc => exact orderly_drain h hpc
  | drained hpc => exact orderly_drained h hpc
  | putBack hpc => exact orderly_putBack h hpc
  | finishStop e hpc =>
    refine ⟨fun name => ?_, trivial, h.lost⟩
    rw [← h.inOrder name]
    simp [Runner.underway, hpc]
  | _ => exact ⟨h.inOrder, h.clear, h.lost⟩

/-- `dropQueued` discards measurements of the source it was called for only. -/
theorem discarded_moves {s t : Runner K} {l : RunnerLabel K}
    (h : ∀ name v, (.discarded name, v) ∈ s.taken → v.source = name) (hmove : s.Moves l t) :
    ∀ name v, (.discarded name, v) ∈ t.taken → v.source = name := by
  cases hmove with
  | receive e fate hpc hrecv hfate =>
    intro name v hv
    rcases List.mem_append.mp hv with hv | hv
    · exact h name v hv
    · exact absurd (Prod.mk.inj (List.mem_singleton.mp hv)).1.symm (hfate name)
  | drain hpc =>
    unfold Runner.drain
    split
    · exact h
    · split
      · next u meas _ hsource =>
        intro name v hv
        rcases List.mem_append.mp hv with hv | hv
        · exact h name v hv
        · obtain ⟨hname, rfl⟩ := Prod.mk.inj (List.mem_singleton.mp hv)
          exact hsource.trans (Fate.discarded.inj hname).symm
      · exact h
  | putBack hpc =>
    unfold Runner.putBack
    split <;> exact h
  | _ => exact h

/-! ## Runs -/

variable [Field K] [LinearOrder K] [HasSqrt K] (sha256 : Bytes → Digest)

/-- **`dropQueued` and the other sources.**  It discards measurements of the source it is
called for only; and in every run of undisturbed steps, every source's measurements leave
the queue in the order they were sent, and none is lost. -/
theorem dropQueued_keeps_others (e : Engine K) (ls : List (RunnerLabel K)) (s : Runner K)
    (hs : Runs.run (Runner.step sha256) (.new e) ls = some s) :
    (∀ name v, (.discarded name, v) ∈ s.taken → v.source = name) ∧
      (Runs.Along (Runner.step sha256) Runner.Undisturbed (.new e) ls →
        s.InOrder ∧ s.lost = []) := by
  constructor
  · exact Runs.run_invariant (C := fun _ _ => True)
      (I := fun u => ∀ name v, (.discarded name, v) ∈ u.taken → v.source = name)
      (fun _ _ _ hinv _ hstep => discarded_moves hinv (step_moves sha256 hstep))
      (by simp [Runner.new]) (Runs.along_of_forall (fun _ _ => trivial) _ ls) hs
  · intro hundisturbed
    have horderly := Runs.run_invariant
      (fun _ _ _ hinv hC hstep => orderly_moves hinv (step_moves sha256 hstep) hC)
      (orderly_new e) hundisturbed hs
    exact ⟨horderly.inOrder, horderly.lost⟩

section Samples

open Discipline (gps report settlingConfig)
open Leap (firstBytes)

/-- A second source. -/
def backup : Name := .server

/-- A daemon with two sources. -/
def pairDaemon : Engine ℚ :=
  Engine.new firstBytes ⟨settlingConfig, [(gps, ⟨false, false, true, false, false⟩),
    (backup, ⟨false, false, true, false, false⟩)], false, none⟩ .empty 0 false 0 0 0 0

/-- A measurement of the second source. -/
def answer (t : ℚ) : Measurement ℚ := { report t .none with source := backup }

/-- Both sources have a measurement in the queue when the first one stops, and `dropQueued`
receives both. -/
def drainingRun : List (RunnerLabel ℚ) :=
  [.send (report 1 .none), .send (answer 1), .ret gps, .reportStop gps, .takeStop, .drain, .drain]

/-- The measurement of the second source is put back, and the engine receives it. -/
def putBackRun : List (RunnerLabel ℚ) :=
  [.drain, .putBack, .finishStop 6 3 (steady 0), .receive 4 0 4 (steady 0)]

/-- Left alone, `dropQueued` discards the one and returns the other to the engine. -/
theorem dropQueued_keeps_others_pair :
    ∃ s, Runs.run (Runner.step firstBytes) (.new pairDaemon)
        (drainingRun ++ putBackRun ++ [.send (answer 5)]) = some s ∧
      s.taken.map (fun x => (x.1, x.2.measurement.at_)) = [(.discarded gps, 1), (.applied, 1)] ∧
      s.InOrder ∧ s.lost = [] := by
  have h : (Runs.run (Runner.step firstBytes) (.new pairDaemon)
      (drainingRun ++ putBackRun ++ [.send (answer 5)])).map
        (fun s => s.taken.map fun x => (x.1, x.2.measurement.at_))
      = some [(.discarded gps, 1), (.applied, 1)] := by decide +kernel
  obtain ⟨s, hs, htaken⟩ := Option.map_eq_some_iff.mp h
  exact ⟨s, hs, htaken, (dropQueued_keeps_others firstBytes _ _ s hs).2 (by decide +kernel)⟩

/-- The second source sends again before its measurement is put back: the engine receives
the later one first.  And when it fills the queue meanwhile, the earlier one is lost. -/
theorem requeued_out_of_order :
    (∃ s, Runs.run (Runner.step firstBytes) (.new pairDaemon)
        (drainingRun ++ [.send (answer 2)] ++ putBackRun ++ [.receive 5 0 5 (steady 0)]) = some s ∧
      (ofSource backup s.sent).map (·.measurement.at_) = [1, 2] ∧
      (ofSource backup (s.taken.map Prod.snd)).map (·.measurement.at_) = [2, 1]) ∧
    ∃ s, Runs.run (Runner.step firstBytes) (.new pairDaemon)
        (drainingRun ++ List.replicate 64 (.send (answer 2)) ++ [.drain, .putBack]) = some s ∧
      s.lost.map (fun v => (v.source, v.measurement.at_)) = [(backup, 1)] := by
  constructor
  · have h : (Runs.run (Runner.step firstBytes) (.new pairDaemon)
        (drainingRun ++ [.send (answer 2)] ++ putBackRun ++ [.receive 5 0 5 (steady 0)])).map
        (fun s => ((ofSource backup s.sent).map (·.measurement.at_),
          (ofSource backup (s.taken.map Prod.snd)).map (·.measurement.at_)))
        = some ([1, 2], [2, 1]) := by decide +kernel
    obtain ⟨s, hs, h⟩ := Option.map_eq_some_iff.mp h
    exact ⟨s, hs, Prod.mk.inj h⟩
  · exact Option.map_eq_some_iff.mp (by decide +kernel :
      (Runs.run (Runner.step firstBytes) (.new pairDaemon)
        (drainingRun ++ List.replicate 64 (.send (answer 2)) ++ [.drain, .putBack])).map
        (fun s => s.lost.map fun v => (v.source, v.measurement.at_)) = some [(backup, 1)])

end Samples

end Carillon
