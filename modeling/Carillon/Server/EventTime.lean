/-
# The time of the last event

`eventTime` in `server/stats.go` keeps the wall time of the newest event for the status:
`store` takes a number from the sequence, and then checks, reads and swaps the time in
separate atomic operations until the swap succeeds or a later call has taken a number.

The machine interleaves the operations of any number of calls.  The check comes before the
read, so a call that passed it can be overtaken by a later one, read the later one's
time and swap its own in over it.  As long as no call takes a number while another stands
there, the check turns every older call away that has not read yet, the swap fails for those
that have, and the time of the newest call stays.
-/
import Carillon.Lib.Runs
import Mathlib.Algebra.Group.Nat.Defs
import Mathlib.Data.List.Basic
import Mathlib.Data.Int.Notation

namespace Carillon.Server

/-! ## The interleaved calls -/

/-- The operation that a call of `store` makes next. -/
inductive StorePhase where
  /-- `e.seq.Load()`. -/
  | check
  /-- `e.ns.Load()`. -/
  | load
  /-- `e.ns.CompareAndSwap(old, …)`. -/
  | swap (old : ℤ)
  | returned
  deriving DecidableEq

/-- A call of `store` with the time it was given, in Unix nanoseconds, after `e.seq.Add(1)`. -/
structure StoreCall where
  time : ℤ
  next : UInt64
  phase : StorePhase
  deriving DecidableEq

/-- `eventTime`, with the calls in the order in which they took their numbers. -/
structure EventTime where
  seq : UInt64
  ns : ℤ
  calls : List StoreCall
  deriving DecidableEq

def EventTime.new : EventTime := ⟨0, 0, []⟩

inductive StoreOp where
  /-- A call begins: `e.seq.Add(1)`. -/
  | add (time : ℤ)
  /-- The next atomic operation of a call. -/
  | advance (i : ℕ)

/-- The operation that a call makes next. -/
def EventTime.advance (e : EventTime) (i : ℕ) (c : StoreCall) : Option EventTime :=
  match c.phase with
  | .check =>
    let phase := if e.seq ≠ c.next then .returned else .load
    some { e with calls := e.calls.set i { c with phase := phase } }
  | .load => some { e with calls := e.calls.set i { c with phase := .swap e.ns } }
  | .swap old =>
    if e.ns = old then
      some { e with ns := c.time, calls := e.calls.set i { c with phase := .returned } }
    else some { e with calls := e.calls.set i { c with phase := .check } }
  | .returned => none

def EventTime.step (e : EventTime) : StoreOp → Option EventTime
  | .add time => some
    { e with seq := e.seq + 1, calls := e.calls ++ [⟨time, e.seq + 1, .check⟩] }
  | .advance i => (e.calls[i]?).bind (e.advance i)

/-- The call that took the last number. -/
def EventTime.newest? (e : EventTime) : Option StoreCall := e.calls.getLast?

/-- A number is taken only while no call stands between its check and its read, and none has read
the very time that is to be stored; and the numbers do not wrap. -/
def EventTime.Orderly (e : EventTime) : StoreOp → Prop
  | .add time =>
    e.calls.length + 1 < 2 ^ 64 ∧ ∀ c ∈ e.calls, c.phase ≠ .load ∧ c.phase ≠ .swap time
  | .advance _ => True

instance (e : EventTime) : (op : StoreOp) → Decidable (e.Orderly op)
  | .add _ => inferInstanceAs (Decidable (_ ∧ _))
  | .advance _ => .isTrue trivial

/-! ## One operation -/

/-- What an operation may do to the stored time and to its call. -/
inductive StoreAccess (seq : UInt64) (ns : ℤ) (c : StoreCall) : ℤ → StoreCall → Prop
  | superseded (hphase : c.phase = .check) (hseq : seq ≠ c.next) :
      StoreAccess seq ns c ns { c with phase := .returned }
  | claim (hphase : c.phase = .check) (hseq : seq = c.next) :
      StoreAccess seq ns c ns { c with phase := .load }
  | load (hphase : c.phase = .load) : StoreAccess seq ns c ns { c with phase := .swap ns }
  | swap (hphase : c.phase = .swap ns) :
      StoreAccess seq ns c c.time { c with phase := .returned }
  | lose (old : ℤ) (hphase : c.phase = .swap old) (hne : ns ≠ old) :
      StoreAccess seq ns c ns { c with phase := .check }

theorem StoreAccess.call_eq {seq : UInt64} {ns ns' : ℤ} {c c' : StoreCall}
    (h : StoreAccess seq ns c ns' c') : c'.time = c.time ∧ c'.next = c.next := by
  cases h <;> exact ⟨rfl, rfl⟩

variable {e e' : EventTime}

theorem advance_access {i : ℕ} {c : StoreCall} (h : e.advance i c = some e') :
    ∃ c', StoreAccess e.seq e.ns c e'.ns c' ∧ e'.seq = e.seq ∧ e'.calls = e.calls.set i c' := by
  unfold EventTime.advance at h
  split at h
  case h_1 hphase =>
    cases h
    by_cases hseq : e.seq = c.next
    · exact ⟨_, .claim hphase hseq, rfl, by simp [hseq]⟩
    · exact ⟨_, .superseded hphase hseq, rfl, by simp [hseq]⟩
  case h_2 hphase =>
    cases h
    exact ⟨_, .load hphase, rfl, rfl⟩
  case h_3 old hphase =>
    split_ifs at h with hsame <;> cases h
    · subst hsame
      exact ⟨_, .swap hphase, rfl, rfl⟩
    · exact ⟨_, .lose old hphase hsame, rfl, rfl⟩
  case h_4 => cases h

/-! ## Numbers -/

/-- The calls have their numbers in order, and the sequence that of the last. -/
structure EventTime.Numbered (e : EventTime) : Prop where
  seq : e.seq = UInt64.ofNat e.calls.length
  next : ∀ i c, e.calls[i]? = some c → c.next = UInt64.ofNat (i + 1)

theorem numbered_step {op : StoreOp} (h : e.Numbered) (hstep : e.step op = some e') :
    e'.Numbered := by
  cases op with
  | add time =>
      cases hstep
      have hseq : e.seq + 1 = UInt64.ofNat (e.calls.length + 1) := by
        rw [h.seq, UInt64.ofNat_add]
        rfl
      refine ⟨?_, fun i c hc => ?_⟩
      · rw [List.length_append]
        exact hseq
      · obtain hlt | rfl | hgt := Nat.lt_trichotomy i e.calls.length
        · rw [List.getElem?_append_left hlt] at hc
          exact h.next i c hc
        · rw [List.getElem?_concat_length] at hc
          cases hc
          exact hseq
        · rw [List.getElem?_eq_none (by rw [List.length_append]; exact hgt)] at hc
          cases hc
  | advance i =>
      obtain ⟨c, hc, hadvance⟩ := Option.bind_eq_some_iff.mp hstep
      obtain ⟨c', haccess, hseq, hcalls⟩ := advance_access hadvance
      refine ⟨?_, fun j d hd => ?_⟩
      · rw [hseq, hcalls, List.length_set, h.seq]
      · rw [hcalls] at hd
        by_cases hij : i = j
        · subst hij
          rw [List.getElem?_set_self (List.getElem?_eq_some_iff.mp hc).1] at hd
          cases hd
          exact haccess.call_eq.2.trans (h.next i c hc)
        · rw [List.getElem?_set_ne hij] at hd
          exact h.next j d hd

/-- So the newest call has the number in the sequence. -/
theorem EventTime.Numbered.newest {e : EventTime} (h : e.Numbered) {newest : StoreCall}
    (hnewest : newest ∈ e.newest?) : newest.next = e.seq := by
  rw [EventTime.newest?, List.getLast?_eq_getElem?] at hnewest
  have hlt := (List.getElem?_eq_some_iff.mp hnewest).1
  rw [h.next _ _ hnewest, h.seq]
  congr 1
  omega

/-- And while the numbers do not wrap it is the highest. -/
theorem EventTime.Numbered.highest {e : EventTime} (h : e.Numbered)
    (hfit : e.calls.length < 2 ^ 64) {c : StoreCall} (hc : c ∈ e.calls) : c.next ≤ e.seq := by
  obtain ⟨i, hi⟩ := List.mem_iff_getElem?.mp hc
  have hlt := (List.getElem?_eq_some_iff.mp hi).1
  rw [h.next i c hi, h.seq, UInt64.le_iff_toNat_le, UInt64.toNat_ofNat', UInt64.toNat_ofNat']
  omega

/-! ## The newest call's time -/

/-- An older call does not have the newest number. -/
theorem EventTime.Numbered.older {e : EventTime} (h : e.Numbered) (hfit : e.calls.length < 2 ^ 64)
    {i : ℕ} {c : StoreCall} (hc : e.calls[i]? = some c) (hi : i + 1 < e.calls.length) :
    e.seq ≠ c.next := by
  rw [h.next i c hc, h.seq]
  intro heq
  have hnat := congrArg UInt64.toNat heq
  rw [UInt64.toNat_ofNat', UInt64.toNat_ofNat'] at hnat
  omega

/-- An older call has not passed its check, or it has read another time than the newest call's;
and the stored time is that of the newest call, once this has returned. -/
structure EventTime.Guarded (e : EventTime) : Prop where
  numbered : e.Numbered
  fits : e.calls.length < 2 ^ 64
  older : ∀ i c, e.calls[i]? = some c → i + 1 < e.calls.length → ∀ newest ∈ e.newest?,
    c.phase ≠ .load ∧ c.phase ≠ .swap newest.time
  fresh : ∀ newest ∈ e.newest?, newest.phase = .returned → e.ns = newest.time

/-- A new call, which has stored nothing yet. -/
theorem guarded_add {e : EventTime} {time : ℤ} (h : e.Guarded) (hadd : e.Orderly (.add time)) :
    EventTime.Guarded
      { e with seq := e.seq + 1, calls := e.calls ++ [⟨time, e.seq + 1, .check⟩] } := by
  have hstep : e.step (.add time) = some _ := rfl
  refine ⟨numbered_step h.numbered hstep, ?_, fun i c hc hi newest hnewest => ?_,
    fun newest hnewest hreturned => ?_⟩
  · rw [List.length_append]
    exact hadd.1
  · rw [EventTime.newest?, List.getLast?_concat] at hnewest
    cases hnewest
    rw [List.length_append, List.length_singleton, Nat.add_lt_add_iff_right] at hi
    rw [List.getElem?_append_left hi] at hc
    exact hadd.2 c (List.mem_of_getElem? hc)
  · rw [EventTime.newest?, List.getLast?_concat] at hnewest
    cases hnewest
    cases hreturned

/-- An operation of the newest call: it passes every check, and stores its time. -/
theorem guarded_newest {i : ℕ} {c c' : StoreCall} (h : e.Guarded) (hc : e.calls[i]? = some c)
    (hlast : i + 1 = e.calls.length) (haccess : StoreAccess e.seq e.ns c e'.ns c')
    (hnum : e'.Numbered) (hcalls : e'.calls = e.calls.set i c') : e'.Guarded := by
  have hlt := (List.getElem?_eq_some_iff.mp hc).1
  have hold : e.newest? = some c := by
    rw [EventTime.newest?, List.getLast?_eq_getElem?, ← hlast]
    exact hc
  have hnew : e'.newest? = some c' := by
    rw [EventTime.newest?, hcalls, List.getLast?_eq_getElem?, List.length_set, ← hlast]
    exact List.getElem?_set_self hlt
  refine ⟨hnum, by rw [hcalls, List.length_set]; exact h.fits, fun j d hd hj newest hnewest => ?_,
    fun newest hnewest hreturned => ?_⟩
  · cases hnew.symm.trans hnewest
    rw [hcalls, List.length_set] at hj
    rw [hcalls, List.getElem?_set_ne (by omega)] at hd
    rw [haccess.call_eq.1]
    exact h.older j d hd hj c hold
  · cases hnew.symm.trans hnewest
    generalize hns : e'.ns = ns' at haccess
    cases haccess with
    | superseded hphase hseq => exact absurd (h.numbered.newest hold).symm hseq
    | swap hphase => rfl
    | claim | load | lose => cases hreturned

/-- An operation of an older call: the check turns it away, or the swap fails unless the newest
call is still to store its time. -/
theorem guarded_older {i : ℕ} {c c' : StoreCall} (h : e.Guarded) (hc : e.calls[i]? = some c)
    (hi : i + 1 < e.calls.length) (haccess : StoreAccess e.seq e.ns c e'.ns c') (hnum : e'.Numbered)
    (hcalls : e'.calls = e.calls.set i c') : e'.Guarded := by
  have hlt := (List.getElem?_eq_some_iff.mp hc).1
  have hsame : e'.newest? = e.newest? := by
    rw [EventTime.newest?, EventTime.newest?, hcalls, List.getLast?_eq_getElem?,
      List.getLast?_eq_getElem?, List.length_set]
    exact List.getElem?_set_ne (by omega)
  generalize hns : e'.ns = ns' at haccess
  have hdone : ∀ newest ∈ e.newest?, (c'.phase ≠ .load ∧ c'.phase ≠ .swap newest.time) ∧
      (newest.phase = .returned → ns' = newest.time) := by
    intro newest hnewest
    have hfresh := h.fresh newest hnewest
    obtain ⟨hload, hswap⟩ := h.older i c hc hi newest hnewest
    cases haccess with
    | superseded => exact ⟨⟨nofun, nofun⟩, hfresh⟩
    | claim hphase hseq => exact absurd hseq (h.numbered.older h.fits hc hi)
    | load hphase => exact absurd hphase hload
    | swap hphase =>
        refine ⟨⟨nofun, nofun⟩, fun hreturned => ?_⟩
        rw [← hfresh hreturned] at hswap
        exact absurd hphase hswap
    | lose => exact ⟨⟨nofun, nofun⟩, hfresh⟩
  refine ⟨hnum, by rw [hcalls, List.length_set]; exact h.fits, fun j d hd hj newest hnewest => ?_,
    fun newest hnewest hreturned => ?_⟩
  · rw [hsame] at hnewest
    rw [hcalls] at hd hj
    by_cases hij : i = j
    · subst hij
      rw [List.getElem?_set_self hlt] at hd
      cases hd
      exact (hdone newest hnewest).1
    · rw [List.getElem?_set_ne hij] at hd
      exact h.older j d hd (by rwa [List.length_set] at hj) newest hnewest
  · rw [hsame] at hnewest
    rw [hns]
    exact (hdone newest hnewest).2 hreturned

/-- **One operation.** -/
theorem guarded_step {op : StoreOp} (h : e.Guarded) (hop : e.Orderly op)
    (hstep : e.step op = some e') : e'.Guarded := by
  cases op with
  | add time =>
      cases hstep
      exact guarded_add h hop
  | advance i =>
      have hnum := numbered_step h.numbered hstep
      obtain ⟨c, hc, hadvance⟩ := Option.bind_eq_some_iff.mp hstep
      obtain ⟨c', haccess, -, hcalls⟩ := advance_access hadvance
      have hlt := (List.getElem?_eq_some_iff.mp hc).1
      rcases Nat.lt_or_eq_of_le (Nat.succ_le_of_lt hlt) with hi | hlast
      · exact guarded_older h hc hi haccess hnum hcalls
      · exact guarded_newest h hc hlast haccess hnum hcalls

/-! ## Whole runs -/

/-- The stored time when every call has returned: that of the call with the highest number. -/
def EventTime.Settled (e : EventTime) : Prop :=
  (∀ c ∈ e.calls, c.phase = .returned) →
    ∀ newest ∈ e.newest?, e.ns = newest.time ∧ newest.next = e.seq ∧
      (e.calls.length < 2 ^ 64 → ∀ c ∈ e.calls, c.next ≤ newest.next)

/-- **The time of the last event.**  In every interleaving of the operations of any calls in which
no number is taken while another call may still store an older time unnoticed, the stored time is
that of the call with the highest number, once all calls have returned. -/
theorem eventTime_newest (ops : List StoreOp) (e : EventTime)
    (horderly : Runs.Along EventTime.step EventTime.Orderly .new ops)
    (hrun : Runs.run EventTime.step .new ops = some e) : e.Settled := by
  have hnew : EventTime.new.Guarded := ⟨⟨rfl, nofun⟩, by decide, nofun, nofun⟩
  have h : e.Guarded :=
    Runs.run_invariant (fun _ _ _ h hop hs => guarded_step h hop hs) hnew horderly hrun
  intro hall newest hnewest
  have hseq := h.numbered.newest hnewest
  refine ⟨h.fresh newest hnewest (hall newest (List.mem_of_getLast? hnewest)), hseq, ?_⟩
  intro hfit c hc
  rw [hseq]
  exact h.numbered.highest hfit hc

/-- Two calls, the first of them overtaken between its check and its read. -/
def overtaken : List StoreOp :=
  [.add 1, .advance 0, .add 2, .advance 1, .advance 1, .advance 1, .advance 0, .advance 0]

/-- The older call reads the newer one's time and swaps its own in over it. -/
theorem eventTime_older_last :
    ∃ e, Runs.run EventTime.step .new overtaken = some e ∧
      (∀ c ∈ e.calls, c.phase = .returned) ∧ e.ns = 1 ∧
      e.newest? = some ⟨2, 2, .returned⟩ ∧ ¬e.Settled := by
  refine ⟨⟨2, 1, [⟨1, 1, .returned⟩, ⟨2, 2, .returned⟩]⟩, by decide, by decide, rfl, rfl, ?_⟩
  intro h
  exact absurd (h (by decide) ⟨2, 2, .returned⟩ rfl).1 (by decide)

/-- The same calls, the older one overtaken after its read: its swap fails. -/
def overtakenLater : List StoreOp :=
  [.add 1, .advance 0, .advance 0, .add 2, .advance 1, .advance 1, .advance 1, .advance 0,
    .advance 0]

theorem eventTime_newest_overtaken :
    ∃ e : EventTime, e.calls = [⟨1, 1, .returned⟩, ⟨2, 2, .returned⟩] ∧ e.Settled :=
  ⟨⟨2, 2, [⟨1, 1, .returned⟩, ⟨2, 2, .returned⟩]⟩, rfl,
    eventTime_newest overtakenLater _ (by decide) (by decide)⟩

end Carillon.Server
