/-
# The chronology of NMEA sentences

The watermark of `refclock/nmea.go` is the timestamp of the last sentence in the window.
A timestamp that does not follow it is refused, and four such timestamps in a row that
follow each other drop the window and with it the watermark.

The turns of `Run` are cut into moves here: one byte, one tick, one reset.  Beside the
clock a chronicle keeps what the source does not: every timestamp that was held against
the watermark, with whether it was out of sequence, and for every offset in the window the
timestamp it came from.  What the source knows of the timestamps out of sequence is a
candidate and a count; they agree with the chronicle in every state that is reached.
-/
import Carillon.Refclock.Grammar
import Carillon.Refclock.Invalidation

namespace Carillon.Refclock

variable {K : Type}

/-! ## Sequence -/

/-- The timestamp is later, and by no more than an hour. -/
def Follows (last stamp : ℤ) : Prop := last < stamp ∧ stamp - last ≤ nmeaEraJump

instance (last stamp : ℤ) : Decidable (Follows last stamp) :=
  inferInstanceAs (Decidable (_ ∧ _))

/-- `Sub` saturates far beyond an hour. -/
theorem inSequence_iff {last stamp : ℤ} : inSequence last stamp = true ↔ Follows last stamp := by
  unfold inSequence Follows sub
  rw [Bool.and_eq_true, decide_eq_true_eq, decide_eq_true_eq]
  simp only [nmeaEraJump, hour, minute, second, maxDuration]
  omega

/-- The timestamp is out of sequence: there is a watermark, and it does not follow it. -/
def Nmea.Rival (n : Nmea K) (stamp : ℤ) : Prop := n.lastStamp ≠ 0 ∧ ¬Follows n.lastStamp stamp

instance (n : Nmea K) (stamp : ℤ) : Decidable (n.Rival stamp) :=
  inferInstanceAs (Decidable (_ ∧ _))

/-! ## The part of the state that the chronology is about -/

/-- The window of offsets, the watermark, and the evidence for another era. -/
structure Record (K : Type) where
  offsets : List K
  watermark : ℤ
  candidate : ℤ
  count : ℕ

/-- The record of a state. -/
def Nmea.record (n : Nmea K) : Record K := ⟨n.offsets, n.lastStamp, n.eraCandidate, n.eraCount⟩

/-- The record after the window has been dropped. -/
def Record.empty : Record K := ⟨[], 0, 0, 0⟩

/-- The count of `noteEra` with this timestamp. -/
def Nmea.countWith (n : Nmea K) (stamp : ℤ) : ℕ := (n.noteEra stamp).1.eraCount

theorem staleWindow_record (n : Nmea K) :
    n.staleWindow.record = n.record ∧ n.offsets = [] ∨ n.staleWindow.record = .empty := by
  unfold Nmea.staleWindow
  split_ifs with hempty
  · exact .inl ⟨rfl, hempty⟩
  · exact .inr rfl

variable {n : Nmea K}

/-- What `chronologyOK` decides, and what it leaves. -/
theorem chronologyOK_record (hset : n.lastStamp ≠ 0 → n.offsets ≠ []) (stamp : ℤ) :
    (¬n.Rival stamp ∧ (n.chronologyOK stamp).2 = true ∧ (n.chronologyOK stamp).1.record =
        if n.lastStamp = 0 then n.record else ⟨n.offsets, n.lastStamp, 0, 0⟩) ∨
      (n.Rival stamp ∧ nmeaEraConfirm ≤ n.countWith stamp ∧ (n.chronologyOK stamp).2 = true ∧
        (n.chronologyOK stamp).1.record = .empty) ∨
      (n.Rival stamp ∧ n.countWith stamp < nmeaEraConfirm ∧ (n.chronologyOK stamp).2 = false ∧
        (n.chronologyOK stamp).1.record =
          ⟨n.offsets, n.lastStamp, stamp, n.countWith stamp⟩) := by
  unfold Nmea.chronologyOK
  dsimp only
  by_cases hzero : n.lastStamp = 0
  · rw [if_pos hzero, if_pos hzero]
    exact .inl ⟨fun h => h.1 hzero, rfl, rfl⟩
  rw [if_neg hzero, if_neg hzero]
  by_cases hseq : Follows n.lastStamp stamp
  · rw [if_pos (inSequence_iff.mpr hseq)]
    exact .inl ⟨fun h => h.2 hseq, rfl, rfl⟩
  rw [if_neg (fun h => hseq (inSequence_iff.mp h))]
  by_cases hfour : nmeaEraConfirm ≤ n.countWith stamp
  · rw [if_pos (show (n.noteEra stamp).2 = true from decide_eq_true hfour)]
    refine .inr (.inl ⟨⟨hzero, hseq⟩, hfour, rfl, ?_⟩)
    rcases staleWindow_record (n.noteEra stamp).1 with ⟨-, hempty⟩ | h
    · exact absurd hempty (hset hzero)
    · exact h
  · rw [if_neg (show ¬(n.noteEra stamp).2 = true from fun h => hfour (of_decide_eq_true h))]
    exact .inr (.inr ⟨⟨hzero, hseq⟩, not_le.mp hfour, rfl, rfl⟩)

/-- What the rest of `acceptLine` reads of the line is not touched. -/
theorem chronologyOK_line (n : Nmea K) (stamp : ℤ) :
    (n.chronologyOK stamp).1.lineGen = n.lineGen ∧
    (n.chronologyOK stamp).1.lineWall = n.lineWall := by
  unfold Nmea.chronologyOK Nmea.staleWindow Nmea.noteEra
  dsimp only
  split_ifs <;> exact ⟨rfl, rfl⟩

variable {cfg : NmeaConfig K} {stamp : ℤ}

section Sentences

/-- The difference to the local clock is not a saturated one. -/
def Nmea.Measurable (n : Nmea K) (stamp : ℤ) : Prop :=
  ¬(sub stamp n.lineWall = maxDuration ∨ sub stamp n.lineWall = -2 ^ 63)

variable [Field K] [LinearOrder K]

/-- The offset of a timestamp at the arrival of its line. -/
def Nmea.offsetOf (cfg : NmeaConfig K) (n : Nmea K) (stamp : ℤ) : K :=
  (sub stamp n.lineWall : ℤ) / 1000000000 + cfg.offset

variable [FloorRing K]

/-- What becomes of a sentence of the right era. -/
theorem enter_record (cfg : NmeaConfig K) (n : Nmea K) (stamp : ℤ) (gen : ℕ) :
    (¬n.SameEpoch gen ∧ (n.enter cfg stamp gen).2 = none ∧
        (n.enter cfg stamp gen).1.record = .empty) ∨
      (n.SameEpoch gen ∧ ¬n.Measurable stamp ∧ (n.enter cfg stamp gen).2 = none ∧
        (n.enter cfg stamp gen).1.record = n.record) ∨
      (n.SameEpoch gen ∧ n.Measurable stamp ∧ (n.enter cfg stamp gen).2.isSome = true ∧
        ∃ kept, (kept = n.offsets ∨ kept = []) ∧ (n.enter cfg stamp gen).1.record =
          ⟨appendValue kept (n.offsetOf cfg stamp), stamp, 0, 0⟩) := by
  unfold Nmea.enter
  dsimp only
  split_ifs with hepoch hrange
  · exact .inl ⟨fun h => h.elim hepoch.1 hepoch.2, rfl, rfl⟩
  · have hsame : n.SameEpoch gen := by
      by_contra hno
      exact hepoch (not_or.mp hno)
    exact .inr (.inl ⟨hsame, not_not.mpr hrange, rfl, rfl⟩)
  · have hsame : n.SameEpoch gen := by
      by_contra hno
      exact hepoch (not_or.mp hno)
    refine .inr (.inr ⟨hsame, hrange, rfl, (n.noteArrival n.lineMono).offsets, ?_, rfl⟩)
    rcases noteArrival_cases n with ⟨-, h⟩ | ⟨-, h, -⟩
    · exact .inl h
    · exact .inr h

/-- What handling a sentence whose timestamp is `stamp` can do: the record after it, and
whether it has joined the window. -/
inductive Outcome (cfg : NmeaConfig K) (n : Nmea K) (gen : ℕ) (stamp : ℤ) : Record K → Bool → Prop
  /-- Out of sequence, and not often enough. -/
  | refused (rival : n.Rival stamp) (few : n.countWith stamp < nmeaEraConfirm) :
      Outcome cfg n gen stamp ⟨n.offsets, n.lastStamp, stamp, n.countWith stamp⟩ false
  /-- The epoch has changed since the line began. -/
  | stepped (confirmed : n.Rival stamp → nmeaEraConfirm ≤ n.countWith stamp)
      (stepped : ¬n.SameEpoch gen) : Outcome cfg n gen stamp .empty false
  /-- In sequence, too far from the local clock. -/
  | far (follows : ¬n.Rival stamp) (far : ¬n.Measurable stamp) :
      Outcome cfg n gen stamp
        (if n.lastStamp = 0 then n.record else ⟨n.offsets, n.lastStamp, 0, 0⟩) false
  /-- Another era, too far from the local clock. -/
  | farEra (rival : n.Rival stamp) (confirmed : nmeaEraConfirm ≤ n.countWith stamp)
      (far : ¬n.Measurable stamp) : Outcome cfg n gen stamp .empty false
  /-- The offset joins the window, or what is left of it. -/
  | joined {kept : List K} (confirmed : n.Rival stamp → nmeaEraConfirm ≤ n.countWith stamp)
      (same : n.SameEpoch gen) (near : n.Measurable stamp)
      (kept_eq : kept = [] ∨ ¬n.Rival stamp ∧ kept = n.offsets) :
      Outcome cfg n gen stamp ⟨appendValue kept (n.offsetOf cfg stamp), stamp, 0, 0⟩ true

/-- **One sentence.**  The cases are the early exits of `acceptLine`. -/
theorem acceptLine_outcome {gen : ℕ} (hset : n.lastStamp ≠ 0 → n.offsets ≠ [])
    (hscreen : (n.screen cfg n.line n.lineMono).2 = some stamp) :
    Outcome cfg n gen stamp (n.acceptLine cfg gen).1.record (n.acceptLine cfg gen).2.isSome := by
  obtain ⟨seen, hn⟩ := screen_eq cfg n n.line n.lineMono
  have hs : n.screen cfg n.line n.lineMono = ({ n with lastZDASeen := seen }, some stamp) :=
    Prod.ext hn hscreen
  unfold Nmea.acceptLine
  rw [hs]
  dsimp only
  generalize hm : ({ n with lastZDASeen := seen } : Nmea K) = n₁
  -- the line, the window and the era are those of `n`
  have hset₁ : n₁.lastStamp ≠ 0 → n₁.offsets ≠ [] := by rw [← hm]; exact hset
  have hrival : n₁.Rival stamp ↔ n.Rival stamp := by rw [← hm]; rfl
  have hcount : n₁.countWith stamp = n.countWith stamp := by rw [← hm]; rfl
  obtain ⟨hgen, hwall⟩ := chronologyOK_line n₁ stamp
  have hepoch : (n₁.chronologyOK stamp).1.SameEpoch gen ↔ n.SameEpoch gen := by
    rw [Nmea.SameEpoch, hgen, ← hm]
    rfl
  have hmeasure : (n₁.chronologyOK stamp).1.Measurable stamp ↔ n.Measurable stamp := by
    rw [Nmea.Measurable, hwall, ← hm]
    rfl
  have hoffset : (n₁.chronologyOK stamp).1.offsetOf cfg stamp = n.offsetOf cfg stamp := by
    rw [Nmea.offsetOf, hwall, ← hm]
    rfl
  have henter := enter_record cfg (n₁.chronologyOK stamp).1 stamp gen
  rw [hepoch, hmeasure, hoffset] at henter
  rcases chronologyOK_record hset₁ stamp with ⟨hno, hok, hrec⟩ | ⟨hr, hfour, hok, hrec⟩ |
    ⟨hr, hfew, hok, hrec⟩
  · rw [if_pos hok]
    rw [hrival] at hno
    rcases henter with ⟨h1, h2, h3⟩ | ⟨h1, h2, h3, h4⟩ | ⟨h1, h2, h3, kept, hkept, h4⟩
    · rw [h2, h3]
      exact .stepped (fun h => absurd h hno) h1
    · rw [h3, h4, hrec, ← hm]
      exact .far hno h2
    · rw [h3, h4]
      refine .joined (fun h => absurd h hno) h1 h2 ?_
      rcases hkept with hkept | hkept
      · refine .inr ⟨hno, ?_⟩
        have hoffsets : (n₁.chronologyOK stamp).1.record.offsets = n.offsets := by
          rw [hrec, ← hm]
          split_ifs <;> rfl
        rw [hkept]
        exact hoffsets
      · exact .inl hkept
  · rw [if_pos hok]
    rw [hrival] at hr
    rw [hcount] at hfour
    rcases henter with ⟨h1, h2, h3⟩ | ⟨h1, h2, h3, h4⟩ | ⟨h1, h2, h3, kept, hkept, h4⟩
    · rw [h2, h3]
      exact .stepped (fun _ => hfour) h1
    · rw [h3, h4, hrec]
      exact .farEra hr hfour h2
    · rw [h3, h4]
      refine .joined (fun _ => hfour) h1 h2 (.inl ?_)
      rcases hkept with hkept | hkept
      · rw [hkept]
        exact congrArg Record.offsets hrec
      · exact hkept
  · rw [if_neg (by rw [hok]; exact Bool.false_ne_true), hrec, hcount, ← hm]
    exact .refused (hrival.mp hr) (hcount ▸ hfew)

/-! ## Moves -/

/-- The moves that the turns of `Run` are made of. -/
inductive Move (K : Type) where
  | reset
  | discard
  | byte (a : Arrival K) (b : UInt8) (gen : ℕ)
  | tick (now : K)
  | lost
  | reopened
  /-- A measurement goes out. -/
  | emitted

/-- The state after a move. -/
def Nmea.move (cfg : NmeaConfig K) (n : Nmea K) : Move K → Nmea K
  | .reset => n.resetWindow
  | .discard => n.discardChunk
  | .byte a b gen => (n.consumeByte cfg a b gen).1
  | .tick now => (n.tick now).1
  | .lost => n.deviceLost
  | .reopened => n.reopened
  | .emitted => { n with pendingInvalidate := false, unsaid := false }

/-- The moves of a turn, apart from the emissions. -/
def NmeaTurn.moves : NmeaTurn K → List (Move K)
  | .reset => [.reset]
  | .read data a after _ _ =>
    if after ≠ a.gen ∨ a.gen % 2 = 1 then [.discard]
    else data.map (fun d => .byte a d.1 d.2) ++ [.tick a.mono]
  | .timeout mono _ _ => [.tick mono]
  | .lost _ _ => [.lost]
  | .reopened => [.reopened]

omit [Field K] [LinearOrder K] [FloorRing K] in
/-- What emitting measurements does to the state. -/
theorem emitAll_fst (n : Nmea K) (out : List (Discipline.Measurement K)) :
    (n.emitAll out).1 =
      if out = [] then n else { n with pendingInvalidate := false, unsaid := false } := by
  have hemit : ∀ (n : Nmea K) m,
      (n.emit m).1 = { n with pendingInvalidate := false, unsaid := false } := by
    intro n m
    unfold Nmea.emit
    split_ifs with hp
    · rfl
    · rw [Bool.not_eq_true] at hp
      rw [← hp]
  induction out generalizing n with
  | nil => rfl
  | cons m out ih =>
    show ((n.emit m).1.emitAll out).1 = _
    rw [ih, hemit, if_neg (List.cons_ne_nil m out)]
    split_ifs <;> rfl

/-- The move is not an emission. -/
def Move.isSilent : Move K → Bool
  | .emitted => false
  | _ => true

/-- Emitting measurements is at most one move that matters. -/
theorem emitAll_moves (cfg : NmeaConfig K) (n : Nmea K) (out : List (Discipline.Measurement K)) :
    ∃ moves : List (Move K), (n.emitAll out).1 = moves.foldl (Nmea.move cfg) n ∧
      moves.filter Move.isSilent = [] := by
  rw [emitAll_fst]
  split_ifs
  · exact ⟨[], rfl, rfl⟩
  · exact ⟨[.emitted], rfl, rfl⟩

theorem consume_moves (cfg : NmeaConfig K) (a : Arrival K) (n : Nmea K) (data : List (UInt8 × ℕ)) :
    (n.consume cfg a data).1 =
      (data.map fun d => Move.byte a d.1 d.2).foldl (Nmea.move cfg) n := by
  induction data generalizing n with
  | nil => rfl
  | cons d data ih => exact ih _

theorem onTick_moves (cfg : NmeaConfig K) (n : Nmea K) (mono now : K) (gen : ℕ) :
    ∃ moves : List (Move K), (n.onTick cfg mono now gen).1 = moves.foldl (Nmea.move cfg) n ∧
      moves.filter Move.isSilent = [.tick mono] := by
  obtain ⟨moves, hfold, hsilent⟩ := emitAll_moves cfg (n.tick mono).1
    (if (n.tick mono).2 then [(n.tick mono).1.emptyMeasurement cfg now gen] else [])
  exact ⟨.tick mono :: moves, hfold, congrArg (Move.tick mono :: ·) hsilent⟩

/-- **Every turn of `Run` is a sequence of moves.** -/
theorem turn_moves (cfg : NmeaConfig K) (n : Nmea K) (t : NmeaTurn K) :
    ∃ moves : List (Move K), (n.turn cfg t).1 = moves.foldl (Nmea.move cfg) n ∧
      moves.filter Move.isSilent = t.moves := by
  cases t with
  | reset => exact ⟨[.reset], rfl, rfl⟩
  | reopened => exact ⟨[.reopened], rfl, rfl⟩
  | timeout mono now gen => exact onTick_moves cfg n mono now gen
  | lost now gen =>
    obtain ⟨moves, hfold, hsilent⟩ := emitAll_moves cfg n.deviceLost
      [n.deviceLost.emptyMeasurement cfg now gen]
    exact ⟨.lost :: moves, hfold, congrArg (Move.lost :: ·) hsilent⟩
  | read data a after now gen =>
    unfold Nmea.turn NmeaTurn.moves
    dsimp only
    split_ifs
    · exact ⟨[.discard], rfl, rfl⟩
    · obtain ⟨built, hbuilt, hsilent⟩ := emitAll_moves cfg (n.consume cfg a data).1
        (n.consume cfg a data).2
      obtain ⟨ticked, hticked, htick⟩ := onTick_moves cfg
        ((n.consume cfg a data).1.emitAll (n.consume cfg a data).2).1 a.mono now gen
      refine ⟨data.map (fun d => Move.byte a d.1 d.2) ++ (built ++ ticked), ?_, ?_⟩
      · rw [List.foldl_append, List.foldl_append, ← consume_moves, ← hbuilt]
        exact hticked
      · have hbytes : (data.map fun d => Move.byte a d.1 d.2).filter Move.isSilent =
            data.map fun d => Move.byte a d.1 d.2 := by
          rw [List.filter_eq_self]
          intro m hm
          obtain ⟨d, -, rfl⟩ := List.mem_map.mp hm
          rfl
        rw [List.filter_append, List.filter_append, hbytes, hsilent, htick, List.nil_append]

/-- The timestamp that a move holds against the watermark. -/
def Nmea.presents (cfg : NmeaConfig K) (n : Nmea K) : Move K → Option ℤ
  | .byte _ b _ =>
    if (b = 0x0A ∨ b = 0x0D) ∧ n.haveLine = true ∧ n.line ≠ [] then
      (n.screen cfg n.line n.lineMono).2
    else none
  | _ => none

/-- The move builds a measurement: its timestamp has joined the window. -/
def Nmea.joins (cfg : NmeaConfig K) (n : Nmea K) : Move K → Bool
  | .byte a b gen => (n.consumeByte cfg a b gen).2.isSome
  | _ => false

/-- A move without a timestamp leaves the record as it is, or drops the window. -/
theorem move_quiet {m : Move K} (h : n.presents cfg m = none) :
    n.joins cfg m = false ∧
      ((n.move cfg m).record = n.record ∨ (n.move cfg m).record = .empty) := by
  cases m with
  | reset => exact ⟨rfl, .inr rfl⟩
  | discard => exact ⟨rfl, .inr rfl⟩
  | lost => exact ⟨rfl, .inr rfl⟩
  | reopened => exact ⟨rfl, .inr rfl⟩
  | emitted => exact ⟨rfl, .inl rfl⟩
  | tick now =>
    refine ⟨rfl, ?_⟩
    show (n.tick now).1.record = _ ∨ (n.tick now).1.record = _
    unfold Nmea.tick
    dsimp only
    split_ifs
    · exact .inl rfl
    · rcases staleWindow_record { n with
          reach := shiftReach n.reach ⌊now - n.slotAt - 1 / 2⌋.toNat
          slotAt := n.slotAt + ⌊now - n.slotAt - 1 / 2⌋ } with ⟨h, -⟩ | h
      · exact .inl h
      · exact .inr h
    · exact .inl rfl
    · exact .inl rfl
  | byte a b gen =>
    show (n.consumeByte cfg a b gen).2.isSome = false ∧
      ((n.consumeByte cfg a b gen).1.record = _ ∨ (n.consumeByte cfg a b gen).1.record = _)
    unfold Nmea.presents at h
    unfold Nmea.consumeByte
    dsimp only at h ⊢
    split_ifs with hdollar hline hend hnil hlong
    · exact ⟨rfl, .inl rfl⟩
    · exact ⟨rfl, .inl rfl⟩
    · -- the line has ended, and has no timestamp that can be used
      have hhave : n.haveLine = true := by simpa using hline
      rw [if_pos ⟨hend, hhave, hnil⟩] at h
      obtain ⟨seen, hn⟩ := screen_eq cfg n n.line n.lineMono
      have hs : n.screen cfg n.line n.lineMono = ({ n with lastZDASeen := seen }, none) :=
        Prod.ext hn h
      unfold Nmea.acceptLine
      rw [hs]
      exact ⟨rfl, .inl rfl⟩
    · exact ⟨rfl, .inl rfl⟩
    · exact ⟨rfl, .inl rfl⟩
    · exact ⟨rfl, .inl rfl⟩

/-- A move with a timestamp is the end of a line. -/
theorem move_presents {m : Move K} (hset : n.lastStamp ≠ 0 → n.offsets ≠ [])
    (h : n.presents cfg m = some stamp) :
    ∃ a b gen, m = .byte a b gen ∧
      Outcome cfg n gen stamp (n.move cfg m).record (n.joins cfg m) := by
  cases m with
  | reset => cases h
  | discard => cases h
  | lost => cases h
  | reopened => cases h
  | emitted => cases h
  | tick now => cases h
  | byte a b gen =>
    unfold Nmea.presents at h
    dsimp only at h
    split_ifs at h with hend
    obtain ⟨hend, hhave, hnil⟩ := hend
    refine ⟨a, b, gen, rfl, ?_⟩
    have hdollar : b ≠ 0x24 := by rcases hend with rfl | rfl <;> decide
    have hbyte : n.consumeByte cfg a b gen =
        ({ (n.acceptLine cfg gen).1 with haveLine := false }, (n.acceptLine cfg gen).2) := by
      unfold Nmea.consumeByte
      rw [if_neg hdollar, if_neg (by simp [hhave]), if_pos hend, if_pos hnil]
    have houtcome : Outcome cfg n gen stamp _ _ := acceptLine_outcome hset h
    show Outcome cfg n gen stamp (n.consumeByte cfg a b gen).1.record
      (n.consumeByte cfg a b gen).2.isSome
    rw [hbyte]
    exact houtcome

omit [Field K] [LinearOrder K] [FloorRing K] in
/-- An instant of a year from 2000 on is not zero. -/
theorem date_ne_zero {d : Gregorian.Date} {c : ClockTime} (hyear : 2000 ≤ d.year)
    (hmonth : 1 ≤ d.month ∧ d.month ≤ 12) (hday : 1 ≤ d.day) (hc : c.InRange) : date d c ≠ 0 := by
  have hpos : 0 < Gregorian.dayNumber d := by
    unfold Gregorian.dayNumber Gregorian.daysBeforeYear Gregorian.daysBeforeMonth
    split_ifs <;> omega
  have hdiv := date_ediv_day d hc
  intro h
  rw [h, Int.zero_ediv] at hdiv
  omega

omit [FloorRing K] in
/-- The timestamps of sentences are not the zero time. -/
theorem presents_ne_zero {m : Move K} (h : n.presents cfg m = some stamp) :
    stamp ≠ 0 := by
  have hscreen : ∃ line mono, (n.screen cfg line mono).2 = some stamp := by
    cases m with
    | byte a b gen =>
      unfold Nmea.presents at h
      dsimp only at h
      split_ifs at h
      exact ⟨_, _, h⟩
    | _ => cases h
  obtain ⟨line, mono, hs⟩ := hscreen
  have hparse : ∃ s, parseNMEA line = .ok s ∧ s.kind ≠ .gga ∧ s.timestamp = stamp := by
    unfold Nmea.screen at hs
    split at hs
    · cases hs
    split at hs
    · cases hs
    · rename_i s hparse
      split_ifs at hs with hgga
      · exact ⟨s, hparse, hgga, Option.some.inj hs⟩
      · exact ⟨s, hparse, hgga, Option.some.inj hs⟩
  obtain ⟨s, hparse, hgga, rfl⟩ := hparse
  obtain ⟨fields, d, c, -, -, -, hd, hstamp⟩ := parseNMEA_dated hparse hgga
  have hyear : 2000 ≤ d.year := by
    have hfirst : s.kind.years.1 = 2000 := by
      cases hk : s.kind with
      | gga => exact absurd hk hgga
      | rmc => rfl
      | zda => rfl
    rw [← hfirst]
    exact hd.year.1
  rw [hstamp]
  exact date_ne_zero hyear hd.month hd.day.1 (clock_inRange hd.clock)

end Sentences

/-! ## The chronicle -/

/-- A timestamp that was held against the watermark, and whether it was out of sequence. -/
structure Seen where
  stamp : ℤ
  rival : Bool
  deriving DecidableEq, Repr

/-- An offset in the window: the number of its timestamp among those seen, the timestamp
and the offset. -/
structure Sample (K : Type) where
  serial : ℕ
  stamp : ℤ
  offset : K

/-- The clock, with what has been seen (the newest first) and what is in the window (the
newest last). -/
structure Chronicle (K : Type) where
  clock : Nmea K
  seen : List Seen
  window : List (Sample K)

/-- How many of the newest timestamps in a row were out of sequence and each follows the
one before it. -/
def rivalRun : List Seen → ℕ
  | [] => 0
  | [s] => if s.rival then 1 else 0
  | s :: r :: rest =>
    if s.rival then
      if r.rival ∧ Follows r.stamp s.stamp then rivalRun (r :: rest) + 1 else 1
    else 0

section Chronicles

variable [Field K] [LinearOrder K] [FloorRing K]

/-- A move of the clock.  The window holds the newest samples, as many as the clock has
offsets. -/
def Chronicle.move (cfg : NmeaConfig K) (c : Chronicle K) (m : Move K) : Chronicle K :=
  let clock := c.clock.move cfg m
  match c.clock.presents cfg m with
  | none => ⟨clock, c.seen, windowTail c.window clock.offsets.length⟩
  | some stamp =>
    let joined : List (Sample K) :=
      if c.clock.joins cfg m then [⟨c.seen.length, stamp, c.clock.offsetOf cfg stamp⟩] else []
    ⟨clock, ⟨stamp, decide (c.clock.Rival stamp)⟩ :: c.seen,
      windowTail (c.window ++ joined) clock.offsets.length⟩

/-- A new clock of which nothing is told yet. -/
def Chronicle.new : Chronicle K := ⟨.new, [], []⟩

/-- The chronicle of a sequence of moves. -/
def Chronicle.run (cfg : NmeaConfig K) (moves : List (Move K)) : Chronicle K :=
  moves.foldl (Chronicle.move cfg) .new

theorem move_clock (cfg : NmeaConfig K) (c : Chronicle K) (m : Move K) :
    (c.move cfg m).clock = c.clock.move cfg m := by
  unfold Chronicle.move
  dsimp only
  split <;> rfl

/-- The chronicle is one of the clock. -/
theorem run_clock (cfg : NmeaConfig K) (moves : List (Move K)) :
    (Chronicle.run cfg moves).clock = moves.foldl (Nmea.move cfg) .new := by
  have hfold : ∀ (moves : List (Move K)) (c : Chronicle K),
      (moves.foldl (Chronicle.move cfg) c).clock = moves.foldl (Nmea.move cfg) c.clock := by
    intro moves
    induction moves with
    | nil => exact fun c => rfl
    | cons m moves ih =>
      intro c
      rw [List.foldl_cons, List.foldl_cons, ih, move_clock]
  exact hfold moves .new

omit [Field K] [LinearOrder K] [FloorRing K] in
/-- What the source knows of the timestamps out of sequence: nothing, and then the newest
timestamp was in sequence or is the watermark itself; or the newest and their number. -/
inductive EraNoted (n : Nmea K) (seen : List Seen) : Prop
  | idle (count : n.eraCount = 0) (candidate : n.eraCandidate = 0)
      (newest : n.lastStamp ≠ 0 → ∀ s ∈ seen.head?, s.rival = true → s.stamp = n.lastStamp)
  | running (set : n.lastStamp ≠ 0) (s : Seen) (rest : List Seen) (seen_eq : seen = s :: rest)
      (rival : s.rival = true) (stamp_ne : s.stamp ≠ 0) (candidate : n.eraCandidate = s.stamp)
      (count : n.eraCount = rivalRun seen)

/-- **The invariant of the chronicle.** -/
structure Chronicle.Kept (c : Chronicle K) : Prop where
  offsets_eq : c.clock.offsets = c.window.map Sample.offset
  chain : (c.window.map Sample.stamp).IsChain Follows
  watermark : c.clock.lastStamp = ((c.window.map Sample.stamp).getLast?).getD 0
  seen_at : ∀ s ∈ c.window, s.stamp ≠ 0 ∧
    ∃ rival, c.seen.reverse[s.serial]? = some ⟨s.stamp, rival⟩
  era : EraNoted c.clock c.seen

omit [Field K] [LinearOrder K] [FloorRing K] in
/-- **The count of the source is the number of timestamps in a row out of sequence.** -/
theorem countWith_eq {seen : List Seen} (h : EraNoted n seen) (hrival : n.Rival stamp) :
    n.countWith stamp = rivalRun (⟨stamp, true⟩ :: seen) := by
  have hcount : n.countWith stamp =
      if n.eraCandidate ≠ 0 ∧ Follows n.eraCandidate stamp then n.eraCount + 1 else 1 := by
    show (if (decide (n.eraCandidate ≠ 0) && inSequence n.eraCandidate stamp) = true then
      n.eraCount + 1 else 1) = _
    simp only [Bool.and_eq_true, decide_eq_true_eq, inSequence_iff]
  rw [hcount]
  cases h with
  | idle count candidate newest =>
    rw [if_neg (fun h => h.1 candidate)]
    cases seen with
    | nil => rfl
    | cons r rest =>
      rw [rivalRun, if_pos rfl, if_neg]
      rintro ⟨hr, hfollows⟩
      rw [newest hrival.1 r rfl hr] at hfollows
      exact hrival.2 hfollows
  | running set s rest seen_eq rival stamp_ne candidate count =>
    subst seen_eq
    rw [rivalRun, if_pos rfl, candidate, count]
    by_cases hfollows : Follows s.stamp stamp
    · rw [if_pos ⟨stamp_ne, hfollows⟩, if_pos ⟨rival, hfollows⟩]
    · rw [if_neg (fun h => hfollows h.2), if_neg (fun h => hfollows h.2)]

omit [Field K] [LinearOrder K] [FloorRing K] in
/-- The newest samples after one has joined: all of them, or all but the oldest. -/
theorem windowTail_appendValue {α : Type} (f : α → K) (l : List α) (x : α) :
    ∃ l', (l' = l ∨ l' = l.tail) ∧ appendValue (l.map f) (f x) = (l' ++ [x]).map f ∧
      windowTail (l ++ [x]) (appendValue (l.map f) (f x)).length = l' ++ [x] := by
  unfold appendValue windowTail
  by_cases hfull : (l.map f).length = nmeaWindow
  · rw [if_pos hfull]
    rw [List.length_map] at hfull
    cases l with
    | nil => cases hfull
    | cons y l =>
      refine ⟨l, .inr rfl, by simp, ?_⟩
      simp
  · rw [if_neg hfull]
    refine ⟨l, .inl rfl, by simp, ?_⟩
    simp

namespace Chronicle.Kept

variable {c : Chronicle K} {n' : Nmea K}

omit [Field K] [LinearOrder K] [FloorRing K] in
/-- **There is a watermark exactly when there is a window.** -/
theorem watermark_iff (h : c.Kept) : c.clock.lastStamp ≠ 0 ↔ c.clock.offsets ≠ [] := by
  rw [h.watermark, h.offsets_eq, List.getLast?_map, ne_eq, ne_eq, List.map_eq_nil_iff]
  cases hlast : c.window.getLast? with
  | none =>
    rw [List.getLast?_eq_none_iff.mp hlast]
    exact ⟨fun hne => absurd rfl hne, fun hne => absurd rfl hne⟩
  | some s =>
    refine ⟨fun _ hnil => ?_, fun _ => (h.seen_at s (List.mem_of_getLast? hlast)).1⟩
    rw [hnil] at hlast
    cases hlast

omit [Field K] [LinearOrder K] [FloorRing K] in
/-- The window has been dropped. -/
theorem dropped (hrec : n'.record = .empty) (seen : List Seen) (window : List (Sample K)) :
    (⟨n', seen, windowTail window n'.offsets.length⟩ : Chronicle K).Kept := by
  have hoffsets : n'.offsets = [] := congrArg Record.offsets hrec
  have hstamp : n'.lastStamp = 0 := congrArg Record.watermark hrec
  have hwindow : windowTail window n'.offsets.length = [] := by
    rw [hoffsets, windowTail, List.length_nil, Nat.sub_zero, List.drop_length]
  rw [hwindow]
  refine ⟨hoffsets, List.isChain_nil, hstamp, nofun, .idle ?_ ?_ ?_⟩
  · exact congrArg Record.count hrec
  · exact congrArg Record.candidate hrec
  · exact fun hne => absurd hstamp hne

omit [Field K] [LinearOrder K] [FloorRing K] in
/-- Neither the window nor the watermark has changed. -/
theorem stays (h : c.Kept) (hoffsets : n'.offsets = c.clock.offsets)
    (hstamp : n'.lastStamp = c.clock.lastStamp) (newer : List Seen)
    (hera : EraNoted n' (newer ++ c.seen)) :
    (⟨n', newer ++ c.seen, windowTail c.window n'.offsets.length⟩ : Chronicle K).Kept := by
  have hwindow : windowTail c.window n'.offsets.length = c.window := by
    rw [hoffsets, h.offsets_eq, List.length_map, windowTail, Nat.sub_self, List.drop_zero]
  rw [hwindow]
  refine ⟨hoffsets.trans h.offsets_eq, h.chain, hstamp.trans h.watermark, ?_, hera⟩
  intro s hs
  obtain ⟨hne, rival, hat⟩ := h.seen_at s hs
  refine ⟨hne, rival, ?_⟩
  show (newer ++ c.seen).reverse[s.serial]? = _
  rw [List.reverse_append, List.getElem?_append_left (List.getElem?_eq_some_iff.mp hat).1]
  exact hat

section Joined

omit [Field K] [LinearOrder K] [FloorRing K]

/-- Without offsets the window is empty. -/
theorem window_eq_nil (h : c.Kept) (hnil : c.clock.offsets = []) : c.window = [] := by
  have hwindow := h.offsets_eq
  rw [hnil] at hwindow
  exact List.map_eq_nil_iff.mp hwindow.symm

/-- The samples that are left when another one joins: none, or those of the window without
the oldest, and then its timestamp is in sequence. -/
def Remaining (c : Chronicle K) (stamp : ℤ) (left : List (Sample K)) : Prop :=
  left = [] ∨ (left = c.window ∨ left = c.window.tail) ∧ ¬c.clock.Rival stamp

theorem Remaining.subset {left : List (Sample K)} (h : Remaining c stamp left) :
    left ⊆ c.window := by
  rcases h with rfl | ⟨rfl | rfl, -⟩
  · exact List.nil_subset c.window
  · exact List.Subset.refl c.window
  · exact List.tail_subset c.window

/-- The window after a sample has joined. -/
theorem remaining_joined (h : c.Kept) {kept : List K} {x : Sample K}
    (hkept : kept = [] ∨ ¬c.clock.Rival x.stamp ∧ kept = c.clock.offsets) :
    ∃ left, Remaining c x.stamp left ∧
      appendValue kept x.offset = (left ++ [x]).map Sample.offset ∧
      windowTail (c.window ++ [x]) (appendValue kept x.offset).length = left ++ [x] := by
  rcases hkept with rfl | ⟨hfollows, rfl⟩
  · refine ⟨[], .inl rfl, rfl, ?_⟩
    unfold windowTail
    rw [List.length_append, List.nil_append]
    exact List.drop_left' (by simp [appendValue, nmeaWindow])
  · obtain ⟨left, hleft, hmap, hwindow⟩ := windowTail_appendValue Sample.offset c.window x
    rw [← h.offsets_eq] at hmap hwindow
    exact ⟨left, .inr ⟨hleft, hfollows⟩, hmap, hwindow⟩

/-- The last sample that is left has the watermark, so the chain goes on. -/
theorem chain_joined (h : c.Kept) {x : Sample K} {left : List (Sample K)}
    (hleft : Remaining c x.stamp left) : ((left ++ [x]).map Sample.stamp).IsChain Follows := by
  rw [List.map_append, List.isChain_append]
  refine ⟨?_, List.isChain_singleton _, ?_⟩
  · rcases hleft with rfl | ⟨rfl | rfl, -⟩
    · exact List.isChain_nil
    · exact h.chain
    · rw [List.map_tail]
      exact h.chain.tail
  · intro last hlast y hy
    obtain rfl : x.stamp = y := Option.some.inj hy
    rcases hleft with rfl | ⟨hleft, hfollows⟩
    · cases hlast
    · have hlast : (c.window.map Sample.stamp).getLast? = some last := by
        rcases hleft with rfl | rfl
        · exact hlast
        · rw [List.map_tail, List.getLast?_tail] at hlast
          split_ifs at hlast
          · cases hlast
          · exact hlast
      have hwater := h.watermark
      rw [hlast, Option.getD_some] at hwater
      obtain ⟨s, hs, hlast⟩ := List.mem_map.mp (List.mem_of_getLast? hlast)
      by_contra hno
      refine hfollows ⟨?_, ?_⟩
      · rw [hwater, ← hlast]
        exact (h.seen_at s hs).1
      · rw [hwater]
        exact hno

/-- A sample has joined the window, or what is left of it. -/
theorem joined (h : c.Kept) {kept : List K} {x : Sample K} {rival : Bool}
    (hserial : x.serial = c.seen.length) (hne : x.stamp ≠ 0)
    (hkept : kept = [] ∨ ¬c.clock.Rival x.stamp ∧ kept = c.clock.offsets)
    (hrec : n'.record = ⟨appendValue kept x.offset, x.stamp, 0, 0⟩) :
    (⟨n', ⟨x.stamp, rival⟩ :: c.seen,
      windowTail (c.window ++ [x]) n'.offsets.length⟩ : Chronicle K).Kept := by
  have hoffsets : n'.offsets = appendValue kept x.offset := congrArg Record.offsets hrec
  have hstamp : n'.lastStamp = x.stamp := congrArg Record.watermark hrec
  obtain ⟨left, hleft, hmap, hwindow⟩ := remaining_joined h hkept
  rw [hoffsets, hwindow]
  refine ⟨hoffsets.trans hmap, chain_joined h hleft, ?_, ?_, .idle ?_ ?_ ?_⟩
  · rw [List.map_append, List.map_singleton, List.getLast?_concat]
    exact hstamp
  · intro s hs
    rcases List.mem_append.mp hs with hs | hs
    · obtain ⟨hs0, r, hat⟩ := h.seen_at s (hleft.subset hs)
      refine ⟨hs0, r, ?_⟩
      rw [List.reverse_cons, List.getElem?_append_left (List.getElem?_eq_some_iff.mp hat).1]
      exact hat
    · rw [List.mem_singleton.mp hs]
      refine ⟨hne, rival, ?_⟩
      rw [List.reverse_cons, hserial, List.getElem?_append_right (by simp)]
      simp
  · exact congrArg Record.count hrec
  · exact congrArg Record.candidate hrec
  · intro _ s hs _
    obtain rfl : ⟨x.stamp, rival⟩ = s := Option.some.inj hs
    exact hstamp.symm

end Joined

omit [LinearOrder K] [FloorRing K] in
theorem new : (Chronicle.new : Chronicle K).Kept :=
  ⟨rfl, List.isChain_nil, rfl, nofun, .idle rfl rfl fun h => absurd rfl h⟩

/-- **Every move keeps the invariant.** -/
theorem move (h : c.Kept) (cfg : NmeaConfig K) (m : Move K) : (c.move cfg m).Kept := by
  unfold Chronicle.move
  dsimp only
  cases hp : c.clock.presents cfg m with
  | none =>
    rcases (move_quiet hp).2 with hrec | hrec
    · have hera : EraNoted (c.clock.move cfg m) ([] ++ c.seen) := by
        have hcount : (c.clock.move cfg m).eraCount = c.clock.eraCount := congrArg Record.count hrec
        have hcand : (c.clock.move cfg m).eraCandidate = c.clock.eraCandidate :=
          congrArg Record.candidate hrec
        have hlast : (c.clock.move cfg m).lastStamp = c.clock.lastStamp :=
          congrArg Record.watermark hrec
        cases h.era with
        | idle count candidate newest =>
          exact .idle (hcount.trans count) (hcand.trans candidate) (by rw [hlast]; exact newest)
        | running set s rest seen_eq rival stamp_ne candidate count =>
          exact .running (by rw [hlast]; exact set) s rest seen_eq rival stamp_ne
            (hcand.trans candidate) (hcount.trans count)
      exact h.stays (congrArg Record.offsets hrec) (congrArg Record.watermark hrec) [] hera
    · exact dropped hrec _ _
  | some stamp =>
    have hne := presents_ne_zero hp
    obtain ⟨a, b, gen, rfl, ho⟩ := move_presents h.watermark_iff.mp hp
    dsimp only
    generalize hrec : (c.clock.move cfg (.byte a b gen)).record = r at ho
    generalize c.clock.joins cfg (.byte a b gen) = j at ho
    cases ho with
    | refused rival few =>
      rw [if_neg Bool.false_ne_true, List.append_nil, decide_eq_true rival]
      refine h.stays (congrArg Record.offsets hrec) (congrArg Record.watermark hrec)
        [⟨stamp, true⟩] ?_
      have hlast : (c.clock.move cfg (.byte a b gen)).lastStamp = c.clock.lastStamp :=
        congrArg Record.watermark hrec
      refine .running (by rw [hlast]; exact rival.1) ⟨stamp, true⟩ c.seen rfl rfl hne
        (congrArg Record.candidate hrec) ?_
      exact (congrArg Record.count hrec).trans (countWith_eq h.era rival)
    | stepped confirmed stepped => exact dropped hrec _ _
    | farEra rival confirmed far => exact dropped hrec _ _
    | far follows far =>
      rw [if_neg Bool.false_ne_true, List.append_nil, decide_eq_false follows]
      -- the newest timestamp was in sequence
      have hnewest : ∀ s ∈ ([(⟨stamp, false⟩ : Seen)] ++ c.seen).head?, s.rival = true →
          s.stamp = (c.clock.move cfg (.byte a b gen)).lastStamp := by
        intro s hs hrival
        obtain rfl : ⟨stamp, false⟩ = s := Option.some.inj hs
        cases hrival
      by_cases hzero : c.clock.lastStamp = 0
      · rw [if_pos hzero] at hrec
        refine h.stays (congrArg Record.offsets hrec) (congrArg Record.watermark hrec)
          [⟨stamp, false⟩] ?_
        cases h.era with
        | idle count candidate newest =>
          exact .idle ((congrArg Record.count hrec).trans count)
            ((congrArg Record.candidate hrec).trans candidate) fun _ => hnewest
        | running set => exact absurd hzero set
      · rw [if_neg hzero] at hrec
        refine h.stays (congrArg Record.offsets hrec) (congrArg Record.watermark hrec)
          [⟨stamp, false⟩] ?_
        exact .idle (congrArg Record.count hrec) (congrArg Record.candidate hrec) fun _ => hnewest
    | joined confirmed same near kept_eq =>
      rw [if_pos rfl]
      exact h.joined (x := ⟨c.seen.length, stamp, c.clock.offsetOf cfg stamp⟩) rfl hne kept_eq hrec

end Chronicle.Kept

/-! ## Runs -/

theorem run_kept (cfg : NmeaConfig K) (moves : List (Move K)) : (Chronicle.run cfg moves).Kept := by
  have hfold : ∀ (moves : List (Move K)) (c : Chronicle K), c.Kept →
      (moves.foldl (Chronicle.move cfg) c).Kept := by
    intro moves
    induction moves with
    | nil => exact fun c h => h
    | cons m moves ih => exact fun c h => ih _ (h.move cfg m)
  exact hfold moves .new .new

/-- What is in the window after a move was there before, or its timestamp is the one that
the move has seen. -/
theorem move_window (cfg : NmeaConfig K) (c : Chronicle K) (m : Move K) :
    c.seen.length ≤ (c.move cfg m).seen.length ∧
      ∀ s ∈ (c.move cfg m).window, s ∈ c.window ∨ s.serial = c.seen.length := by
  unfold Chronicle.move windowTail
  dsimp only
  cases c.clock.presents cfg m with
  | none => exact ⟨le_rfl, fun s hs => .inl (List.mem_of_mem_drop hs)⟩
  | some stamp =>
    refine ⟨Nat.le_succ _, fun s hs => ?_⟩
    rcases List.mem_append.mp (List.mem_of_mem_drop hs) with hs | hs
    · exact .inl hs
    · split_ifs at hs
      · rw [List.mem_singleton.mp hs]
        exact .inr rfl
      · exact absurd hs List.not_mem_nil

/-- A window with one offset has the sample that has just joined. -/
theorem move_window_single {c : Chronicle K} {m : Move K} (hp : c.clock.presents cfg m = some stamp)
    (hjoins : c.clock.joins cfg m = true) (hlen : (c.clock.move cfg m).offsets.length = 1) :
    ∀ s ∈ (c.move cfg m).window, s.serial = c.seen.length := by
  intro s hs
  unfold Chronicle.move windowTail at hs
  rw [hp] at hs
  dsimp only at hs
  rw [if_pos hjoins, hlen, List.length_append, List.length_singleton, Nat.add_sub_cancel,
    List.drop_left] at hs
  rw [List.mem_singleton.mp hs]

/-- What is in the window later is in it now, or has a timestamp that is seen later. -/
theorem later_window (cfg : NmeaConfig K) (later : List (Move K)) (c : Chronicle K) :
    ∀ s ∈ (later.foldl (Chronicle.move cfg) c).window, s ∈ c.window ∨ c.seen.length ≤ s.serial := by
  induction later generalizing c with
  | nil => exact fun s hs => .inl hs
  | cons m later ih =>
    intro s hs
    obtain ⟨hlen, hmove⟩ := move_window cfg c m
    rcases ih (c.move cfg m) s hs with hs | hs
    · rcases hmove s hs with hs | hs
      · exact .inl hs
      · exact .inr hs.ge
    · exact .inr (hlen.trans hs)

/-- What is in the window after a move decides what can be in it later. -/
theorem later_serial {c : Chronicle K} {m : Move K}
    (hnow : ∀ s ∈ (c.move cfg m).window, c.seen.length ≤ s.serial) (later : List (Move K)) :
    ∀ s ∈ ((m :: later).foldl (Chronicle.move cfg) c).window, c.seen.length ≤ s.serial := by
  intro s hs
  rw [List.foldl_cons] at hs
  rcases later_window cfg later (c.move cfg m) s hs with hs | hs
  · exact hnow s hs
  · exact (move_window cfg c m).1.trans hs

/-- **The chronology of NMEA sentences**, after any sequence of moves.

* There is a watermark exactly when there is a window.
* The offsets in the window come from timestamps that were seen, each of which follows the
  one before it.
* A timestamp out of sequence that is not the fourth in a row changes neither the watermark
  nor the window.
* The fourth in a row drops the window, and from then on only samples of later timestamps
  are in it.  The fourth itself becomes the watermark and the only sample when the epoch is
  that of its line and its offset can be measured; otherwise window and watermark stay
  empty. -/
theorem nmea_chronology (cfg : NmeaConfig K) (moves : List (Move K)) :
    let c := Chronicle.run cfg moves
    let n := moves.foldl (Nmea.move cfg) .new
    (n.lastStamp ≠ 0 ↔ n.offsets ≠ []) ∧
    (n.offsets = c.window.map Sample.offset ∧ (c.window.map Sample.stamp).IsChain Follows ∧
      ∀ s ∈ c.window, ∃ rival, c.seen.reverse[s.serial]? = some ⟨s.stamp, rival⟩) ∧
    ∀ a b gen stamp, n.presents cfg (.byte a b gen) = some stamp → n.lastStamp ≠ 0 →
      ¬Follows n.lastStamp stamp →
      let n' := n.move cfg (.byte a b gen)
      (rivalRun (⟨stamp, true⟩ :: c.seen) < 4 →
        n'.lastStamp = n.lastStamp ∧ n'.offsets = n.offsets) ∧
      (4 ≤ rivalRun (⟨stamp, true⟩ :: c.seen) →
        (n.SameEpoch gen ∧ n.Measurable stamp →
          n'.lastStamp = stamp ∧ n'.offsets = [n.offsetOf cfg stamp]) ∧
        (¬(n.SameEpoch gen ∧ n.Measurable stamp) → n'.lastStamp = 0 ∧ n'.offsets = []) ∧
        ∀ later, ∀ s ∈ (Chronicle.run cfg (moves ++ .byte a b gen :: later)).window,
          c.seen.length ≤ s.serial) := by
  intro c n
  have h : c.Kept := run_kept cfg moves
  have hn : c.clock = n := run_clock cfg moves
  rw [← hn]
  refine ⟨h.watermark_iff, ⟨h.offsets_eq, h.chain, fun s hs => (h.seen_at s hs).2⟩, ?_⟩
  intro a b gen stamp hp hset hfollows n'
  have hrival : c.clock.Rival stamp := ⟨hset, hfollows⟩
  obtain ⟨a', b', gen', hm, ho⟩ := move_presents h.watermark_iff.mp hp
  cases hm
  rw [← countWith_eq h.era hrival]
  generalize hrec : (c.clock.move cfg (.byte a b gen)).record = r at ho
  generalize hjoins : c.clock.joins cfg (.byte a b gen) = j at ho
  have hstamp : n'.lastStamp = r.watermark := congrArg Record.watermark hrec
  have hoffsets : n'.offsets = r.offsets := congrArg Record.offsets hrec
  have hlater : (∀ s ∈ (c.move cfg (.byte a b gen)).window, c.seen.length ≤ s.serial) → ∀ later,
      ∀ s ∈ (Chronicle.run cfg (moves ++ .byte a b gen :: later)).window,
        c.seen.length ≤ s.serial := by
    intro hnow later
    unfold Chronicle.run
    rw [List.foldl_append]
    exact later_serial hnow later
  have hempty : n'.offsets = [] → ∀ s ∈ (c.move cfg (.byte a b gen)).window,
      c.seen.length ≤ s.serial := by
    intro hnil s hs
    rw [(h.move cfg (.byte a b gen)).window_eq_nil (by rw [move_clock]; exact hnil)] at hs
    exact absurd hs List.not_mem_nil
  rw [hstamp, hoffsets]
  cases ho with
  | refused rival few => exact ⟨fun _ => ⟨rfl, rfl⟩, fun hfour => absurd few (not_lt.mpr hfour)⟩
  | far follows far => exact absurd hrival follows
  | stepped confirmed stepped =>
    refine ⟨fun hfew => absurd (confirmed hrival) (not_le.mpr hfew), fun _ => ⟨?_, ?_, ?_⟩⟩
    · exact fun hboth => absurd hboth.1 stepped
    · exact fun _ => ⟨rfl, rfl⟩
    · exact hlater (hempty hoffsets)
  | farEra rival confirmed far =>
    refine ⟨fun hfew => absurd confirmed (not_le.mpr hfew), fun _ => ⟨?_, ?_, ?_⟩⟩
    · exact fun hboth => absurd hboth.2 far
    · exact fun _ => ⟨rfl, rfl⟩
    · exact hlater (hempty hoffsets)
  | joined confirmed same near kept_eq =>
    rcases kept_eq with rfl | ⟨hno, -⟩
    · refine ⟨fun hfew => absurd (confirmed hrival) (not_le.mpr hfew), fun _ => ⟨?_, ?_, ?_⟩⟩
      · exact fun _ => ⟨rfl, rfl⟩
      · exact fun hno => absurd ⟨same, near⟩ hno
      · have hlen : n'.offsets.length = 1 := by
          rw [hoffsets]
          rfl
        exact hlater fun s hs => (move_window_single hp hjoins hlen s hs).ge
    · exact absurd hrival hno

end Chronicles

/-- The bytes of sentences that are read at noon of 1 June 2026. -/
def noonMoves (lines : List String) : List (Move ℚ) :=
  (serial 2 lines).map fun d => .byte ⟨midnight ⟨2026, 6, 1⟩ + 12 * hour, 1, 2⟩ d.1 d.2

/-- Four sentences that follow each other, in the year 2400. -/
def farSentences : List String :=
  ["$GPZDA,120001,01,06,2400,00,00*4B", "$GPZDA,120002,01,06,2400,00,00*48",
    "$GPZDA,120003,01,06,2400,00,00*49", "$GPZDA,120004,01,06,2400,00,00*4E"]

/-- **The old era can come back.**  After a sentence of noon there is a sample and a
watermark; four sentences of the year 2400 are four in a row out of sequence and drop them,
but none of them can be measured; the next sentence follows the noon of the old era, is
accepted, and is the only sample in the window. -/
theorem nmea_old_era_returns :
    (Chronicle.run receiver (noonMoves (noonSentences.take 1))).window.map Sample.stamp =
      [midnight ⟨2026, 6, 1⟩ + 12 * hour] ∧
    rivalRun (Chronicle.run receiver (noonMoves (noonSentences.take 1 ++ farSentences))).seen = 4 ∧
    (Chronicle.run receiver (noonMoves (noonSentences.take 1 ++ farSentences))).clock.offsets = [] ∧
    (Chronicle.run receiver (noonMoves (noonSentences.take 1 ++ farSentences ++
        ["$GPZDA,120005,01,06,2026,00,00*4F"]))).window.map Sample.stamp =
      [midnight ⟨2026, 6, 1⟩ + 12 * hour + 5 * second] := by
  decide +kernel

end Carillon.Refclock
