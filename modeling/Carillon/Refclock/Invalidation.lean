/-
# Resets of a reference clock's window reach the selector

A reset of the window takes the estimate back that the selector holds.  It is announced
by a flag, `pendingInvalidate`, which the next measurement that is emitted carries away,
and `apply` clears the validity of the source before it records what is new.  The PPS
clock emits each measurement before it goes on, so that the flag is never carried by a
measurement that was built before the reset.  The NMEA clock builds all measurements of
a chunk before it emits the first: when a sentence resets the window after an earlier
one of its chunk has built a valid measurement, that earlier one, or one before it,
carries the flag, and the selector keeps an estimate from the window that is gone.

* `Flags`: the flag, next to a record of the resets that does not read it;
* `Handled`: what the handling of a pulse or of a byte can do to them;
* `PpsFeed` and `NmeaFeed`: a clock together with the state of its source in the
  selector, turn by turn;
* `Nmea.Orderly`: a chunk in which no sentence resets the window while a valid
  measurement of the chunk waits to be emitted.
-/
import Carillon.Lib.Runs
import Carillon.Discipline.Select
import Carillon.Refclock.Nmea

namespace Carillon.Refclock

open Discipline (Measurement Name Options SourceState)

variable {K : Type} [Field K] [LinearOrder K]

omit [Field K] [LinearOrder K] in
theorem applyLeap_valid (s : SourceState K) (m : Measurement K) :
    (s.applyLeap m).valid = s.valid := by
  unfold SourceState.applyLeap
  split_ifs <;> rfl

omit [Field K] [LinearOrder K] in
/-- A source is valid after a valid measurement, and stays so until one takes the
estimate back. -/
theorem apply_valid (s : SourceState K) (m : Measurement K) :
    (s.apply m).valid = (m.valid || (s.valid && !m.invalidate)) := by
  cases hm : m.valid <;> cases hi : m.invalidate <;>
    simp [SourceState.apply, applyLeap_valid, hm, hi]

/-! ## Flags -/

/-- What the resets of a window leave in its clock. -/
structure Flags where
  /-- `pendingInvalidate`, the only one of the program. -/
  pending : Bool
  /-- The window has been reset, and no valid measurement has been built since. -/
  revoked : Bool
  /-- The window has been reset, and no measurement has been emitted since. -/
  unsaid : Bool

/-- A reset of the window. -/
def Flags.raised : Flags := ⟨true, true, true⟩

/-- A measurement goes out. -/
def Flags.lowered (f : Flags) : Flags := { f with pending := false, unsaid := false }

/-- What handling a pulse or a byte can do: `f'` are the flags after it, `valid` tells
whether it has built a valid measurement, and nothing is reset where `calm` holds. -/
inductive Handled (calm : Prop) (f f' : Flags) (valid : Bool) : Prop where
  /-- The window has not been reset. -/
  | kept (flags : f' = { f with revoked := f.revoked && !valid })
  /-- The window has been reset, and what is in it since is not enough. -/
  | reset (flags : f' = .raised) (invalid : valid = false) (stirred : ¬calm)

/-- Nothing valid has been built, and the flags are the same. -/
theorem Handled.of_eq {calm : Prop} {f f' : Flags} (h : f' = f) : Handled calm f f' false := by
  apply Handled.kept
  rw [h, Bool.not_false, Bool.and_true]

variable {source : SourceState K} {out : List (Measurement K)}

section Sound

omit [Field K] [LinearOrder K]

/-- The selector holds no estimate of a window that is gone, once a measurement has been
emitted after the reset, and none of the measurements `out` that wait to be emitted is
from such a window.  The program's flag is up as long as the selector has to be told. -/
structure Flags.Sound (f : Flags) (out : List (Measurement K)) (source : SourceState K) : Prop where
  waiting : f.revoked = true → ∀ m ∈ out, m.valid = false
  held : f.revoked = true → f.unsaid = false → source.valid = false
  told : f.unsaid = true → f.pending = true

/-- A reset finds nothing valid that waits. -/
theorem Flags.sound_raised (h : ∀ m ∈ out, m.valid = false) (source : SourceState K) :
    Flags.raised.Sound out source where
  waiting _ := h
  held _ hsaid := Bool.noConfusion (hsaid : true = false)
  told _ := rfl

/-- One emission: `m` goes out as `m'`, which carries the flag. -/
theorem Flags.Sound.emit {f : Flags} {m : Measurement K} (h : f.Sound (m :: out) source)
    (m' : Measurement K) (hvalid : m'.valid = m.valid)
    (hflag : f.pending = true → m'.invalidate = true) :
    f.lowered.Sound out (source.apply m') where
  waiting hrevoked x hx := h.waiting hrevoked x (List.mem_cons_of_mem m hx)
  held hrevoked _ := by
    have hm : m'.valid = false := hvalid.trans (h.waiting hrevoked m List.mem_cons_self)
    rw [apply_valid, hm, Bool.false_or]
    cases hunsaid : f.unsaid with
    | true => rw [hflag (h.told hunsaid), Bool.not_true, Bool.and_false]
    | false => rw [h.held hrevoked hunsaid, Bool.false_and]
  told hunsaid := Bool.noConfusion (hunsaid : false = true)

/-- What is built joins what waits; where something valid waits, nothing is reset. -/
theorem Flags.Sound.handled {calm : Prop} {f f' : Flags} (h : f.Sound out source)
    (m : Option (Measurement K)) (hhandled : Handled calm f f' (m.any Measurement.valid))
    (hcalm : out.any Measurement.valid = true → calm) : f'.Sound (out ++ m.toList) source := by
  rcases hhandled with hflags | ⟨rfl, hinvalid, hstirred⟩
  · rw [hflags]
    constructor
    · intro hrevoked x hx
      obtain ⟨hold, hnone⟩ : f.revoked = true ∧ m.any Measurement.valid = false := by
        simpa using hrevoked
      rcases List.mem_append.mp hx with hx | hx
      · exact h.waiting hold x hx
      · rw [Option.mem_toList.mp hx] at hnone
        exact hnone
    · intro hrevoked hsaid
      exact h.held (Bool.and_eq_true_iff.mp hrevoked).1 hsaid
    · exact h.told
  · apply Flags.sound_raised
    intro x hx
    rcases List.mem_append.mp hx with hx | hx
    · by_contra hvalid
      exact hstirred (hcalm (List.any_eq_true.mpr ⟨x, hx, by simpa using hvalid⟩))
    · rw [Option.mem_toList.mp hx] at hinvalid
      exact hinvalid

end Sound

/-! ## The PPS clock -/

section Flag

omit [Field K] [LinearOrder K]

/-- The flags of the PPS clock. -/
def Pps.flags (p : Pps K) : Flags := ⟨p.pendingInvalidate, p.revoked, p.unsaid⟩

/-- A rejected edge leaves the flags alone, or is the last of a run that resets the
window. -/
theorem reject_flags (p : Pps K) : p.reject.flags = p.flags ∨ p.reject.flags = .raised := by
  unfold Pps.reject
  dsimp only
  split_ifs
  · exact .inr rfl
  · exact .inl rfl

/-- After a reset, rejecting the edge changes nothing more. -/
theorem reject_raised {p : Pps K} (h : p.flags = .raised) : p.reject.flags = .raised :=
  (reject_flags p).elim (·.trans h) id

/-- Timeouts that empty the reach register reset the window. -/
theorem timeout_flags (p : Pps K) : p.timeout.flags = p.flags ∨ p.timeout.flags = .raised := by
  unfold Pps.timeout
  dsimp only
  split_ifs
  · exact .inr rfl
  · exact .inl rfl

/-- Flags that are kept or raised, when nothing valid is built. -/
theorem Handled.of_or {f f' : Flags} (h : f' = f ∨ f' = .raised) : Handled False f f' false :=
  h.elim .of_eq fun hraised => .reset hraised rfl id

/-- A measurement of the PPS clock goes out, with the epoch filled in. -/
theorem Flags.Sound.emitPps {p : Pps K} {m : Measurement K} (h : p.flags.Sound [m] source) (now : K)
    (gen : ℕ) :
    (p.emit m now).1.flags.Sound [] (source.apply { (p.emit m now).2 with generation := gen }) := by
  refine h.emit { (p.emit m now).2 with generation := gen } rfl ?_
  intro hpending
  show (m.invalidate || p.pendingInvalidate) = true
  rw [show p.pendingInvalidate = true from hpending, Bool.or_true]

end Flag

/-- The checks of the counter reset the window only for edges that they reject. -/
theorem checkSequence_flags (p : Pps K) (s : Pulse K) :
    (p.checkSequence s).1.flags = p.flags ∨
      (p.checkSequence s).1.flags = .raised ∧ (p.checkSequence s).2 = false := by
  have hreject : ∀ q : Pps K, q.flags = p.flags →
      q.reject.flags = p.flags ∨ q.reject.flags = .raised ∧ false = false := by
    intro q hq
    exact (reject_flags q).imp (·.trans hq) fun hraised => ⟨hraised, rfl⟩
  unfold Pps.checkSequence
  split_ifs
  · exact hreject p rfl
  · cases p.previous with
    | none => exact .inl rfl
    | some q =>
      dsimp only
      split_ifs
      · exact hreject p rfl
      · exact .inr ⟨reject_raised rfl, rfl⟩
      · exact hreject (p.accountSequence s _) rfl
      · exact .inl rfl

/-- So do all checks of an edge. -/
theorem screen_flags (cfg : PpsConfig K) (p : Pps K) (s : Pulse K) :
    (p.screen cfg s).1.flags = p.flags ∨
      (p.screen cfg s).1.flags = .raised ∧ (p.screen cfg s).2 = false := by
  have hchecked := checkSequence_flags p s
  unfold Pps.screen
  generalize p.checkSequence s = r at hchecked
  obtain ⟨q, sound⟩ := r
  dsimp only at hchecked ⊢
  split_ifs with hsound
  · rcases hchecked with hq | ⟨-, hfalse⟩
    · exact (reject_flags q).imp (·.trans hq) fun hraised => ⟨hraised, rfl⟩
    · exact Bool.noConfusion (hfalse.symm.trans hsound)
  · exact hchecked.imp id fun h => absurd hsound (by simp [h.2])
  · exact hchecked.imp id fun h => ⟨h.1, rfl⟩

/-- **An edge.**  It resets the window only when it is rejected. -/
theorem accept_handled (cfg : PpsConfig K) (p : Pps K) (s : Pulse K) :
    Handled False p.flags (p.accept cfg s).1.flags (p.accept cfg s).2.valid := by
  have hscreened := screen_flags cfg p s
  unfold Pps.accept
  generalize p.screen cfg s = r at hscreened
  obtain ⟨q, passed⟩ := r
  dsimp only at hscreened ⊢
  split_ifs with hpassed
  · have hq : q.flags = p.flags := hscreened.resolve_right fun h => by simp [h.2] at hpassed
    have happend : ∀ (q : Pps K) (seq : UInt32) (v : K), (q.appendWindow cfg seq v).flags =
        q.flags := by
      intro q seq v
      unfold Pps.appendWindow
      split_ifs <;> rfl
    have hevaluate : ∀ q : Pps K, Handled False q.flags (q.evaluate cfg s).1.flags
        (q.evaluate cfg s).2.valid := by
      intro q
      unfold Pps.evaluate
      dsimp only
      split_ifs
      · exact .of_eq rfl
      · exact .kept rfl
    have hjoined :=
      hevaluate ({ q with rejectRun := 0, reach := q.reach <<< 1 ||| 1 }.appendWindow cfg
      s.sequence (edgeOffset s.time))
    rw [happend] at hjoined
    exact hq ▸ hjoined
  · exact .of_or (hscreened.imp id And.left)

/-- The PPS clock and its source in the selector. -/
structure PpsFeed (K : Type) where
  clock : Pps K
  source : SourceState K

/-- Nothing has been measured. -/
def PpsFeed.new (cfg : PpsConfig K) (o : Options) : PpsFeed K := ⟨.new cfg, .fresh cfg.name o⟩

/-- One turn of `Run`: its measurements are recorded in the order in which they are
emitted. -/
def PpsFeed.turn (cfg : PpsConfig K) (f : PpsFeed K) (t : PpsTurn K) : PpsFeed K :=
  let (p, out) := f.clock.turn cfg t
  ⟨p, out.foldl SourceState.apply f.source⟩

/-- A turn, for `Runs.run`. -/
def PpsFeed.step (cfg : PpsConfig K) (f : PpsFeed K) (t : PpsTurn K) : Option (PpsFeed K) :=
  some (f.turn cfg t)

omit [Field K] [LinearOrder K] in
/-- The selector holds no estimate of a window that is gone, once a measurement has been
emitted after the reset. -/
def PpsFeed.Upheld (f : PpsFeed K) : Prop :=
  f.clock.revoked = true → f.clock.unsaid = false → f.source.valid = false

/-- Each turn of the PPS clock leaves the selector without an estimate that has been
taken back. -/
theorem PpsFeed.turn_sound (cfg : PpsConfig K) {f : PpsFeed K} (h : f.clock.flags.Sound [] f.source)
    (t : PpsTurn K) : (f.turn cfg t).clock.flags.Sound [] (f.turn cfg t).source := by
  have hnone : ∀ m ∈ [emptyMeasurement cfg], m.valid = false := by
    intro m hm
    rw [List.mem_singleton.mp hm]
    rfl
  cases t with
  | reset => exact Flags.sound_raised (fun _ hm => absurd hm List.not_mem_nil) _
  | pulse s gen =>
    have hbuilt := h.handled (some (f.clock.accept cfg s).2) (accept_handled cfg f.clock s)
      fun hany => Bool.noConfusion (hany : false = true)
    exact hbuilt.emitPps s.now gen
  | discard now gen =>
    have hreset : f.clock.resetWindow.flags.Sound [emptyMeasurement cfg] f.source :=
      Flags.sound_raised hnone _
    exact hreset.emitPps now gen
  | timeout now gen =>
    have hmissed := h.handled (some (emptyMeasurement cfg)) (.of_or (timeout_flags f.clock))
      fun hany => Bool.noConfusion (hany : false = true)
    exact hmissed.emitPps now gen
  | lost now gen =>
    have hlost : f.clock.deviceLost.flags.Sound [emptyMeasurement cfg] f.source :=
      Flags.sound_raised hnone _
    exact hlost.emitPps now gen
  | reopened => exact Flags.sound_raised (fun _ hm => absurd hm List.not_mem_nil) _

/-! ## The NMEA clock -/

omit [Field K] [LinearOrder K] in
/-- The flags of the NMEA clock. -/
def Nmea.flags (n : Nmea K) : Flags := ⟨n.pendingInvalidate, n.revoked, n.unsaid⟩

/-- The NMEA clock and its source in the selector. -/
structure NmeaFeed (K : Type) where
  clock : Nmea K
  source : SourceState K

/-- Nothing has been measured. -/
def NmeaFeed.new (cfg : NmeaConfig K) (o : Options) : NmeaFeed K := ⟨.new, .fresh cfg.name o⟩

omit [Field K] [LinearOrder K] in
@[inherit_doc PpsFeed.Upheld]
def NmeaFeed.Upheld (f : NmeaFeed K) : Prop :=
  f.clock.revoked = true → f.clock.unsaid = false → f.source.valid = false

variable {n : Nmea K}

omit [Field K] [LinearOrder K] in
/-- The measurements of a chunk are emitted one after the other. -/
theorem Flags.Sound.emitAll (h : n.flags.Sound out source) :
    (n.emitAll out).1.flags.Sound [] ((n.emitAll out).2.foldl SourceState.apply source) := by
  induction out generalizing n source with
  | nil => exact h
  | cons m out ih =>
    have hlowered : (n.emit m).1.flags = n.flags.lowered := by
      unfold Nmea.emit
      split_ifs with hp
      · rfl
      · rw [Bool.not_eq_true] at hp
        show (⟨n.pendingInvalidate, n.revoked, false⟩ : Flags) = ⟨false, n.revoked, false⟩
        rw [hp]
    have hvalid : (n.emit m).2.valid = m.valid := by
      unfold Nmea.emit
      split_ifs <;> rfl
    have hflag : n.flags.pending = true → (n.emit m).2.invalidate = true := by
      intro hp
      rw [Nmea.emit, if_pos (show n.pendingInvalidate = true from hp)]
    exact ih (hlowered ▸ h.emit _ hvalid hflag)

/-! ### Sentences -/

section Chronology

omit [Field K] [LinearOrder K]

/-- The sentence does not change the era. -/
def Nmea.SameEra (n : Nmea K) (stamp : ℤ) : Prop :=
  n.lastStamp = 0 ∨ inSequence n.lastStamp stamp = true ∨ (n.noteEra stamp).2 = false

/-- The check of the chronology leaves the window alone, or another era has been
established and the window is empty. -/
theorem chronologyOK_cases (n : Nmea K) (stamp : ℤ) :
    (n.chronologyOK stamp).1.flags = n.flags ∨
      (n.chronologyOK stamp).1.flags = .raised ∧ (n.chronologyOK stamp).1.offsets = [] ∧
        ¬n.SameEra stamp := by
  unfold Nmea.chronologyOK
  dsimp only
  split_ifs with hzero hseq hera
  · exact .inl rfl
  · exact .inl rfl
  · by_cases hempty : (n.noteEra stamp).1.offsets = []
    · rw [Nmea.staleWindow, if_pos hempty]
      exact .inl rfl
    · rw [Nmea.staleWindow, if_neg hempty]
      refine .inr ⟨rfl, rfl, ?_⟩
      rintro (h | h | h)
      · exact hzero h
      · exact hseq h
      · exact Bool.noConfusion (h.symm.trans hera)
  · exact .inl rfl

/-- What the rest of the handling reads is as before. -/
theorem chronologyOK_frame (n : Nmea K) (stamp : ℤ) :
    (n.chronologyOK stamp).1.lineGen = n.lineGen ∧ (n.chronologyOK stamp).1.lineMono = n.lineMono ∧
      (n.chronologyOK stamp).1.haveSlot = n.haveSlot ∧
      (n.chronologyOK stamp).1.slotAt = n.slotAt := by
  unfold Nmea.chronologyOK Nmea.staleWindow Nmea.noteEra
  dsimp only
  split_ifs <;> exact ⟨rfl, rfl, rfl, rfl⟩

end Chronology

/-- Checking a sentence by itself notes at most when a `ZDA` was seen. -/
theorem screen_eq (cfg : NmeaConfig K) (n : Nmea K) (line : Bytes) (mono : K) :
    ∃ seen, (n.screen cfg line mono).1 = { n with lastZDASeen := seen } := by
  unfold Nmea.screen
  split
  · exact ⟨_, rfl⟩
  · split
    · exact ⟨_, rfl⟩
    · split_ifs <;> exact ⟨_, rfl⟩

/-- What a sentence adds to an empty window is not enough. -/
theorem join_valid_of_empty (cfg : NmeaConfig K) (h : n.offsets = []) (stamp : ℤ)
    (mono offset : K) : (n.join cfg stamp mono offset).2.valid = false := by
  show decide (4 ≤ (appendValue n.offsets offset).length) = false
  rw [h]
  rfl

variable [FloorRing K]

/-- The sentence comes before the reach register has emptied. -/
def Nmea.NoGap (n : Nmea K) : Prop :=
  n.haveSlot = true → ⌊n.lineMono - n.slotAt + 1 / 2⌋ < (reachBits : ℤ)

/-- The arrival leaves the window alone, or it comes after a gap and the window is
empty. -/
theorem noteArrival_cases (n : Nmea K) :
    ((n.noteArrival n.lineMono).flags = n.flags ∧
        (n.noteArrival n.lineMono).offsets = n.offsets) ∨
      ((n.noteArrival n.lineMono).flags = .raised ∧ (n.noteArrival n.lineMono).offsets = [] ∧
        ¬n.NoGap) := by
  unfold Nmea.noteArrival
  dsimp only
  by_cases hslot : n.haveSlot = true
  · rw [if_pos hslot]
    split_ifs with hfirst hgap
    · exact .inl ⟨rfl, rfl⟩
    · by_cases hempty : n.offsets = []
      · rw [Nmea.staleWindow, if_pos hempty]
        exact .inl ⟨rfl, rfl⟩
      · rw [Nmea.staleWindow, if_neg hempty]
        exact .inr ⟨rfl, rfl, fun h => absurd (h hslot) (not_lt.mpr hgap)⟩
    · exact .inl ⟨rfl, rfl⟩
  · rw [if_neg hslot]
    exact .inl ⟨rfl, rfl⟩

/-- The epoch is still the one in which the sentence began. -/
def Nmea.SameEpoch (n : Nmea K) (gen : ℕ) : Prop := n.lineGen = 0 ∨ gen = n.lineGen

/-- The sentence joins the window, or the window is reset by it. -/
theorem enter_handled (cfg : NmeaConfig K) (n : Nmea K) (stamp : ℤ) (gen : ℕ) :
    Handled (n.SameEpoch gen ∧ n.NoGap) n.flags (n.enter cfg stamp gen).1.flags
      ((n.enter cfg stamp gen).2.any Measurement.valid) := by
  have hjoined : ∀ (q : Nmea K) (mono offset : K), (q.join cfg stamp mono offset).1.flags =
      { q.flags with revoked := q.flags.revoked && !(q.join cfg stamp mono offset).2.valid } :=
    fun _ _ _ => rfl
  unfold Nmea.enter
  dsimp only
  split_ifs with hepoch hrange
  · refine .reset rfl rfl fun hcalm => ?_
    exact hcalm.1.elim hepoch.1 hepoch.2
  · exact .of_eq rfl
  · rcases noteArrival_cases n with ⟨hflags, -⟩ | ⟨hflags, hempty, hgap⟩
    · apply Handled.kept
      rw [hjoined, hflags]
      rfl
    · have hinvalid := join_valid_of_empty cfg hempty stamp n.lineMono
        ((sub stamp n.lineWall : ℤ) / 1000000000 + cfg.offset)
      refine .reset ?_ hinvalid fun hcalm => hgap hcalm.2
      rw [hjoined, hflags, hinvalid]
      rfl

/-- A sentence after an emptied window builds nothing that is valid. -/
theorem enter_valid_of_empty (cfg : NmeaConfig K) (h : n.offsets = []) (stamp : ℤ) (gen : ℕ) :
    (n.enter cfg stamp gen).2.any Measurement.valid = false := by
  unfold Nmea.enter
  dsimp only
  split_ifs
  · rfl
  · rfl
  · apply join_valid_of_empty
    rcases noteArrival_cases n with ⟨-, hoffsets⟩ | ⟨-, hoffsets, -⟩
    · exact hoffsets.trans h
    · exact hoffsets

/-- Every time sentence that passes its own checks is of the era, of the epoch and
without a gap. -/
def Nmea.Steady (cfg : NmeaConfig K) (n : Nmea K) (gen : ℕ) : Prop :=
  ∀ stamp ∈ (n.screen cfg n.line n.lineMono).2, n.SameEra stamp ∧ n.SameEpoch gen ∧ n.NoGap

instance (cfg : NmeaConfig K) (n : Nmea K) (gen : ℕ) : Decidable (n.Steady cfg gen) := by
  unfold Nmea.Steady Nmea.SameEra Nmea.SameEpoch Nmea.NoGap
  infer_instance

/-- **A sentence.**  It resets the window only by changing the era or the epoch, or
after a gap. -/
theorem acceptLine_handled (cfg : NmeaConfig K) (n : Nmea K) (gen : ℕ) :
    Handled (n.Steady cfg gen) n.flags (n.acceptLine cfg gen).1.flags
      ((n.acceptLine cfg gen).2.any Measurement.valid) := by
  obtain ⟨seen, hscreen⟩ := screen_eq cfg n n.line n.lineMono
  unfold Nmea.acceptLine Nmea.Steady
  generalize hs : n.screen cfg n.line n.lineMono = r at hscreen
  obtain ⟨n₁, stamp⟩ := r
  cases stamp with
  | none =>
    rw [show n₁ = _ from hscreen]
    exact .of_eq rfl
  | some stamp =>
    have hera : n₁.SameEra stamp ↔ n.SameEra stamp := by
      rw [show n₁ = _ from hscreen]
      rfl
    obtain ⟨hgen, hmono, hslot, hat⟩ := chronologyOK_frame n₁ stamp
    have hcalm : (∀ t ∈ (some stamp : Option ℤ), n.SameEra t ∧ n.SameEpoch gen ∧ n.NoGap) →
        n₁.SameEra stamp ∧ (n₁.chronologyOK stamp).1.SameEpoch gen ∧
          (n₁.chronologyOK stamp).1.NoGap := by
      intro h
      obtain ⟨h₁, h₂, h₃⟩ := h stamp rfl
      refine ⟨hera.mpr h₁, ?_, ?_⟩
      · rw [Nmea.SameEpoch, hgen, show n₁ = _ from hscreen]
        exact h₂
      · rw [Nmea.NoGap, hmono, hslot, hat, show n₁ = _ from hscreen]
        exact h₃
    have hflags₁ : n₁.flags = n.flags := by
      rw [show n₁ = _ from hscreen]
      rfl
    have hcases := chronologyOK_cases n₁ stamp
    dsimp only
    generalize n₁.chronologyOK stamp = q at hcases hcalm
    obtain ⟨n₂, ok⟩ := q
    dsimp only at hcases hcalm ⊢
    rcases hcases with hflags₂ | ⟨hflags₂, hempty, hnew⟩
    · have hsame : n₂.flags = n.flags := hflags₂.trans hflags₁
      split_ifs
      · rcases enter_handled cfg n₂ stamp gen with hflags | ⟨hflags, hinvalid, hstirred⟩
        · exact .kept (hsame ▸ hflags)
        · exact .reset hflags hinvalid fun h => hstirred (hcalm h).2
      · exact .of_eq hsame
    · -- the window has just been emptied by another era
      have hstirred := fun h => hnew (hcalm h).1
      split_ifs
      · have hinvalid := enter_valid_of_empty cfg hempty stamp gen
        rcases enter_handled cfg n₂ stamp gen with hflags | ⟨hflags, -, -⟩
        · refine .reset ?_ hinvalid hstirred
          rw [hflags, hflags₂, hinvalid]
          rfl
        · exact .reset hflags hinvalid hstirred
      · exact .reset hflags₂ rfl hstirred

/-! ### Chunks -/

/-- The byte does not end a sentence that resets the window. -/
def Nmea.Quiet (cfg : NmeaConfig K) (n : Nmea K) (b : UInt8) (gen : ℕ) : Prop :=
  b = 0x0A ∨ b = 0x0D → n.haveLine = true → n.Steady cfg gen

instance (cfg : NmeaConfig K) (n : Nmea K) (b : UInt8) (gen : ℕ) :
    Decidable (n.Quiet cfg b gen) := by
  unfold Nmea.Quiet
  infer_instance

/-- A byte resets the window only by ending a sentence that does. -/
theorem consumeByte_handled (cfg : NmeaConfig K) (a : Arrival K) (n : Nmea K) (b : UInt8)
    (gen : ℕ) :
    Handled (n.Quiet cfg b gen) n.flags (n.consumeByte cfg a b gen).1.flags
      ((n.consumeByte cfg a b gen).2.any Measurement.valid) := by
  unfold Nmea.consumeByte
  dsimp only
  split_ifs with hstart hline hend hempty hlong
  · exact .of_eq rfl
  · exact .of_eq rfl
  · rcases acceptLine_handled cfg n gen with hflags | ⟨hflags, hinvalid, hstirred⟩
    · exact .kept hflags
    · exact .reset hflags hinvalid fun h => hstirred (h hend (by simpa using hline))
  · exact .of_eq rfl
  · exact .of_eq rfl
  · exact .of_eq rfl

/-- While a valid measurement of the chunk waits to be emitted (`held`), no sentence of
the chunk resets the window. -/
def Nmea.Orderly (cfg : NmeaConfig K) (a : Arrival K) : Nmea K → Bool → List (UInt8 × ℕ) → Prop
  | _, _, [] => True
  | n, held, (b, gen) :: rest =>
    (held = true → n.Quiet cfg b gen) ∧
      (n.consumeByte cfg a b gen).1.Orderly cfg a
        (held || (n.consumeByte cfg a b gen).2.any Measurement.valid) rest

instance decidableOrderly (cfg : NmeaConfig K) (a : Arrival K) :
    (n : Nmea K) → (held : Bool) → (data : List (UInt8 × ℕ)) → Decidable (n.Orderly cfg a held data)
  | _, _, [] => .isTrue trivial
  | n, held, (b, gen) :: rest =>
    have := decidableOrderly cfg a (n.consumeByte cfg a b gen).1
      (held || (n.consumeByte cfg a b gen).2.any Measurement.valid) rest
    inferInstanceAs (Decidable ((held = true → n.Quiet cfg b gen) ∧ _))

/-- A chunk: everything it has built may be emitted. -/
theorem Flags.Sound.consume {cfg : NmeaConfig K} {a : Arrival K} {data : List (UInt8 × ℕ)}
    (h : n.flags.Sound out source) (horderly : n.Orderly cfg a (out.any Measurement.valid) data) :
    (n.consume cfg a data).1.flags.Sound (out ++ (n.consume cfg a data).2) source := by
  induction data generalizing n out with
  | nil =>
    rw [Nmea.consume, List.append_nil]
    exact h
  | cons byte rest ih =>
    obtain ⟨b, gen⟩ := byte
    obtain ⟨hquiet, horderly⟩ := horderly
    have hstep := ih (h.handled _ (consumeByte_handled cfg a n b gen) hquiet) (by
      rw [List.any_append]
      convert horderly using 2
      cases (n.consumeByte cfg a b gen).2 <;> simp)
    rw [List.append_assoc] at hstep
    exact hstep

/-! ### Turns -/

/-- Ticks leave the flags alone, or reset the window. -/
theorem tick_cases (n : Nmea K) (now : K) :
    (n.tick now).1.flags = n.flags ∨ (n.tick now).1.flags = .raised := by
  unfold Nmea.tick Nmea.staleWindow
  dsimp only
  split_ifs
  · exact .inl rfl
  · exact .inl rfl
  · exact .inr rfl
  · exact .inl rfl
  · exact .inl rfl

/-- What is sound with nothing waiting is sound after a tick. -/
theorem Flags.Sound.onTick (h : n.flags.Sound [] source) (cfg : NmeaConfig K) (mono now : K)
    (gen : ℕ) :
    (n.onTick cfg mono now gen).1.flags.Sound []
      ((n.onTick cfg mono now gen).2.foldl SourceState.apply source) := by
  apply Flags.Sound.emitAll
  have hticked := h.handled none (.of_or (tick_cases n mono))
    fun hany => Bool.noConfusion (hany : false = true)
  refine ⟨fun _ m hm => ?_, hticked.held, hticked.told⟩
  split_ifs at hm
  · rw [List.mem_singleton.mp hm]
    rfl
  · exact absurd hm List.not_mem_nil

/-- One turn of `Run`: its measurements are recorded in the order in which they are
emitted. -/
def NmeaFeed.turn (cfg : NmeaConfig K) (f : NmeaFeed K) (t : NmeaTurn K) : NmeaFeed K :=
  let (n, out) := f.clock.turn cfg t
  ⟨n, out.foldl SourceState.apply f.source⟩

/-- A turn, for `Runs.run`. -/
def NmeaFeed.step (cfg : NmeaConfig K) (f : NmeaFeed K) (t : NmeaTurn K) : Option (NmeaFeed K) :=
  some (f.turn cfg t)

/-- A read that is used is orderly. -/
def NmeaFeed.Orderly (cfg : NmeaConfig K) (f : NmeaFeed K) : NmeaTurn K → Prop
  | .read data a after _ _ => after = a.gen ∧ a.gen % 2 = 0 → f.clock.Orderly cfg a false data
  | _ => True

instance (cfg : NmeaConfig K) (f : NmeaFeed K) : (t : NmeaTurn K) → Decidable (f.Orderly cfg t)
  | .reset => .isTrue trivial
  | .read data a after _ _ =>
    inferInstanceAs (Decidable (after = a.gen ∧ a.gen % 2 = 0 → f.clock.Orderly cfg a false data))
  | .timeout _ _ _ => .isTrue trivial
  | .lost _ _ => .isTrue trivial
  | .reopened => .isTrue trivial

/-- Each orderly turn of the NMEA clock leaves the selector without an estimate that has
been taken back. -/
theorem NmeaFeed.turn_sound (cfg : NmeaConfig K) {f : NmeaFeed K}
    (h : f.clock.flags.Sound [] f.source) {t : NmeaTurn K} (horderly : f.Orderly cfg t) :
    (f.turn cfg t).clock.flags.Sound [] (f.turn cfg t).source := by
  have hreset : Flags.raised.Sound [] f.source :=
    Flags.sound_raised (fun _ hm => absurd hm List.not_mem_nil) _
  show (f.clock.turn cfg t).1.flags.Sound []
    ((f.clock.turn cfg t).2.foldl SourceState.apply f.source)
  cases t with
  | reset => exact hreset
  | read data a after now gen =>
    unfold Nmea.turn
    dsimp only
    split_ifs with hspans
    · exact hreset
    · rw [List.foldl_append]
      apply Flags.Sound.onTick
      apply Flags.Sound.emitAll
      apply h.consume
      apply horderly
      omega
  | timeout mono now gen => exact h.onTick cfg mono now gen
  | lost now gen =>
    apply Flags.Sound.emitAll
    apply Flags.sound_raised
    intro m hm
    rw [List.mem_singleton.mp hm]
    rfl
  | reopened => exact hreset

/-! ## Runs -/

/-- **Resets reach the selector.**  For every run of the PPS clock, and for every run of
the NMEA clock whose chunks are orderly, the source is not valid in the selector when the
window has been reset, a measurement has been emitted since, and none that is valid has
been built from the window since. -/
theorem reset_reaches_selector (o : Options) :
    (∀ (cfg : PpsConfig K) (turns : List (PpsTurn K)) (f : PpsFeed K),
        Runs.run (PpsFeed.step cfg) (.new cfg o) turns = some f → f.Upheld) ∧
      ∀ (cfg : NmeaConfig K) (turns : List (NmeaTurn K)) (f : NmeaFeed K),
        Runs.Along (NmeaFeed.step cfg) (NmeaFeed.Orderly cfg) (.new cfg o) turns →
          Runs.run (NmeaFeed.step cfg) (.new cfg o) turns = some f → f.Upheld := by
  have hstart : ∀ source : SourceState K, (⟨false, false, false⟩ : Flags).Sound [] source :=
    fun _ => ⟨fun h => Bool.noConfusion h, fun h => Bool.noConfusion h, fun h => Bool.noConfusion h⟩
  constructor
  · intro cfg turns f hrun
    have hnew : (PpsFeed.new cfg o).clock.flags.Sound [] (PpsFeed.new cfg o).source := hstart _
    refine (Runs.run_invariant (C := fun _ _ => True)
      (I := fun f : PpsFeed K => f.clock.flags.Sound [] f.source) ?_ hnew
      (Runs.along_of_forall (fun _ _ => trivial) _ turns) hrun).held
    intro f t f' hf _ hstep
    exact Option.some.inj hstep ▸ PpsFeed.turn_sound cfg hf t
  · intro cfg turns f horderly hrun
    have hnew : (NmeaFeed.new cfg o).clock.flags.Sound [] (NmeaFeed.new cfg o).source := hstart _
    refine (Runs.run_invariant (C := NmeaFeed.Orderly cfg)
      (I := fun f : NmeaFeed K => f.clock.flags.Sound [] f.source) ?_ hnew horderly hrun).held
    intro f t f' hf ht hstep
    exact Option.some.inj hstep ▸ NmeaFeed.turn_sound cfg hf ht

/-- A receiver whose `ZDA` sentences are used. -/
def receiver : NmeaConfig ℚ := ⟨.gps, 0, [.zda], 0, -20⟩

/-- A pulse that is reported every four seconds. -/
def pulsar : PpsConfig ℚ := ⟨.pps, 0, 1 / 1000, 2, 4, 500, false, -20⟩

/-- The bytes of whole sentences, all within the epoch `gen`. -/
def serial (gen : ℕ) (lines : List String) : List (UInt8 × ℕ) :=
  lines.flatMap fun line => (ascii line ++ [0x0A]).map fun b => (b, gen)

/-- A read at noon of 1 June 2026 and `mono` seconds, within the epoch 2. -/
def noonRead (mono : ℚ) (lines : List String) : NmeaTurn ℚ :=
  .read (serial 2 lines) ⟨midnight ⟨2026, 6, 1⟩ + 12 * hour, mono, 2⟩ 2 mono 2

/-- `ZDA` sentences of the seconds from noon on. -/
def noonSentences : List String :=
  ["$GPZDA,120000,01,06,2026,00,00*4A", "$GPZDA,120001,01,06,2026,00,00*4B",
    "$GPZDA,120002,01,06,2026,00,00*48", "$GPZDA,120003,01,06,2026,00,00*49",
    "$GPZDA,120004,01,06,2026,00,00*4E"]

/-- Five sentences in one chunk, which make the source valid; a reset; one sentence. -/
def resetTurns : List (NmeaTurn ℚ) :=
  [noonRead 1 noonSentences, .reset, noonRead 2 ["$GPZDA,120005,01,06,2026,00,00*4F"]]

/-- Four pulses, which make the source valid; a reset; a second without a pulse. -/
def pulseTurns : List (PpsTurn ℚ) :=
  [.pulse ⟨1, second, 1, 1⟩ 2, .pulse ⟨2, 2 * second, 2, 2⟩ 2, .pulse ⟨3, 3 * second, 3, 3⟩ 2,
    .pulse ⟨4, 4 * second, 4, 4⟩ 2, .reset, .timeout 5 2]

/-- Both clocks have taken back what the selector held. -/
theorem reset_reaches_selector_gps :
    (∃ f : PpsFeed ℚ, Runs.run (PpsFeed.step pulsar) (.new pulsar default) pulseTurns = some f ∧
        f.clock.revoked = true ∧ f.clock.unsaid = false ∧ f.source.valid = false) ∧
      ∃ f : NmeaFeed ℚ, Runs.run (NmeaFeed.step receiver) (.new receiver default) resetTurns =
        some f ∧ f.clock.revoked = true ∧ f.clock.unsaid = false ∧ f.source.valid = false := by
  obtain ⟨hpps, hnmea⟩ := reset_reaches_selector (K := ℚ) default
  constructor
  · have hrun : (Runs.run (PpsFeed.step pulsar) (.new pulsar default) pulseTurns).map
        (fun f => (f.clock.revoked, f.clock.unsaid)) = some (true, false) := by decide +kernel
    obtain ⟨f, hf, hflags⟩ := Option.map_eq_some_iff.mp hrun
    obtain ⟨hrevoked, hsaid⟩ := Prod.mk.inj hflags
    exact ⟨f, hf, hrevoked, hsaid, hpps pulsar _ f hf hrevoked hsaid⟩
  · have horderly : Runs.Along (NmeaFeed.step receiver) (NmeaFeed.Orderly receiver)
        (.new receiver default) resetTurns := by decide +kernel
    have hrun : (Runs.run (NmeaFeed.step receiver) (.new receiver default) resetTurns).map
        (fun f => (f.clock.revoked, f.clock.unsaid)) = some (true, false) := by
      decide +kernel
    obtain ⟨f, hf, hflags⟩ := Option.map_eq_some_iff.mp hrun
    obtain ⟨hrevoked, hsaid⟩ := Prod.mk.inj hflags
    exact ⟨f, hf, hrevoked, hsaid, hnmea receiver _ f horderly hf hrevoked hsaid⟩

/-- One chunk with four sentences of noon and four of three o'clock.  The fourth builds
a valid measurement; the eighth establishes another era and resets the window.  The flag
goes out with the first measurement of the chunk, the valid one follows it, and the
selector keeps the estimate of the window that is gone. -/
theorem era_change_keeps_estimate :
    (Runs.run (NmeaFeed.step receiver) (.new receiver default)
        [noonRead 1 (noonSentences.take 4 ++
          ["$GPZDA,150000,01,06,2026,00,00*4D", "$GPZDA,150001,01,06,2026,00,00*4C",
            "$GPZDA,150002,01,06,2026,00,00*4F", "$GPZDA,150003,01,06,2026,00,00*4E"])]).map
      (fun f => (f.clock.revoked, f.clock.unsaid, f.source.valid)) =
      some (true, false, true) := by
  decide +kernel

end Carillon.Refclock
