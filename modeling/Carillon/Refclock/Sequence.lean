/-
# The sequence numbers of pulses

The counter of the PPS device is used in three places: the gap since the previous edge, a
restart of the device, and the line through the recent offsets.  All three use differences
of 32-bit numbers only, so a run is the same from any start of the counter, as long as no
edge has the number zero, which stands for no edge.

The gaps fill the reach register.  A second without an edge is first seen as a timeout and
then again in the number of the next edge; the pending timeouts are what keeps it from
being counted twice.
-/
import Carillon.Refclock.Invalidation

namespace Carillon.Refclock

open Discipline (Measurement SourceState)

variable {K : Type} [Field K] [LinearOrder K]

/-! ## Turns and what they emit -/

/-- The state after a sequence of turns. -/
def Pps.after (cfg : PpsConfig K) (p : Pps K) (turns : List (PpsTurn K)) : Pps K :=
  turns.foldl (fun p t => (p.turn cfg t).1) p

/-- The measurements that a sequence of turns emits. -/
def Pps.emissions (cfg : PpsConfig K) : Pps K → List (PpsTurn K) → List (Measurement K)
  | _, [] => []
  | p, t :: turns => (p.turn cfg t).2 ++ (p.turn cfg t).1.emissions cfg turns

/-! ## Another start of the counter -/

omit [Field K] [LinearOrder K] in
/-- The edge with another number. -/
def Pulse.shift (k : UInt32) (s : Pulse K) : Pulse K := { s with sequence := s.sequence + k }

omit [Field K] [LinearOrder K] in
/-- The turn with another number. -/
def PpsTurn.shift (k : UInt32) : PpsTurn K → PpsTurn K
  | .pulse s gen => .pulse (s.shift k) gen
  | t => t

omit [Field K] [LinearOrder K] in
/-- The state that a counter with another start leaves. -/
def Pps.shift (k : UInt32) (p : Pps K) : Pps K :=
  { p with
    windowSeq := p.windowSeq.map (· + k)
    previous := p.previous.map fun q => (q.1 + k, q.2) }

/-- Differences of the counter do not depend on its start. -/
theorem sequence_sub (a b k : UInt32) : a + k - (b + k) = a - b := by
  grind

section Shift

omit [Field K] [LinearOrder K]

theorem shift_reject (k : UInt32) (p : Pps K) : (p.shift k).reject = p.reject.shift k := by
  unfold Pps.reject
  dsimp only
  by_cases h : spikeResetAfter ≤ p.rejectRun + 1
  · rw [if_pos h, if_pos (show spikeResetAfter ≤ (p.shift k).rejectRun + 1 from h)]
    rfl
  · rw [if_neg h, if_neg (show ¬spikeResetAfter ≤ (p.shift k).rejectRun + 1 from h)]
    rfl

theorem shift_accountSequence (k : UInt32) (p : Pps K) (s : Pulse K) (delta : UInt32) :
    (p.shift k).accountSequence (s.shift k) delta = (p.accountSequence s delta).shift k := rfl

theorem shift_sequenceRestart (k : UInt32) (p : Pps K) (s : Pulse K) :
    (p.shift k).sequenceRestart (s.shift k) = (p.sequenceRestart s).shift k := rfl

theorem shift_appendWindow (cfg : PpsConfig K) (k : UInt32) (p : Pps K) (seq : UInt32) (v : K) :
    (p.shift k).appendWindow cfg (seq + k) v = (p.appendWindow cfg seq v).shift k := by
  unfold Pps.appendWindow Pps.shift
  dsimp only
  split_ifs
  · rw [List.map_append, List.map_tail]
    rfl
  · rw [List.map_append]
    rfl

theorem shift_timeout (k : UInt32) (p : Pps K) : (p.shift k).timeout = p.timeout.shift k := by
  unfold Pps.timeout
  dsimp only
  by_cases h : p.reach <<< 1 = 0
  · rw [if_pos h, if_pos (show (p.shift k).reach <<< 1 = 0 from h)]
    rfl
  · rw [if_neg h, if_neg (show ¬(p.shift k).reach <<< 1 = 0 from h)]
    rfl

end Shift

/-- The line through the offsets is drawn over differences of numbers. -/
theorem shift_spikeGate (cfg : PpsConfig K) (k : UInt32) (p : Pps K) (seq : UInt32) :
    (p.shift k).spikeGate cfg (seq + k) = p.spikeGate cfg seq := by
  unfold Pps.spikeGate Pps.shift
  dsimp only
  rw [List.getLast?_map]
  cases p.windowSeq.getLast? with
  | none => rfl
  | some last =>
    have hpoints : (windowTail ((p.windowSeq.map (· + k)).zip p.window) spikeFitMax).map
          (fun q => (((q.1 - (last + k)).toBitVec.toInt : K), q.2)) =
        (windowTail (p.windowSeq.zip p.window) spikeFitMax).map
          (fun q => (((q.1 - last).toBitVec.toInt : K), q.2)) := by
      unfold windowTail
      rw [List.zip_map_left, List.length_map, ← List.map_drop, List.map_map]
      refine List.map_congr_left fun q _ => ?_
      simp only [Function.comp_apply, Prod.map_fst, Prod.map_snd, sequence_sub, id_eq]
    simp only [Option.map_some, hpoints, sequence_sub]

variable {s : Pulse K}

theorem shift_checkSequence {k : UInt32} (p : Pps K) (hs : s.sequence ≠ 0)
    (hk : s.sequence + k ≠ 0) :
    (p.shift k).checkSequence (s.shift k) =
      ((p.checkSequence s).1.shift k, (p.checkSequence s).2) := by
  unfold Pps.checkSequence
  by_cases ht : s.time = 0
  · have hzero : s.sequence = 0 ∨ s.time = 0 := .inr ht
    have hzero' : (s.shift k).sequence = 0 ∨ (s.shift k).time = 0 := .inr ht
    rw [if_pos hzero', if_pos hzero, shift_reject]
  · have hset : ¬(s.sequence = 0 ∨ s.time = 0) := not_or.mpr ⟨hs, ht⟩
    have hset' : ¬((s.shift k).sequence = 0 ∨ (s.shift k).time = 0) := not_or.mpr ⟨hk, ht⟩
    rw [if_neg hset', if_neg hset]
    cases hp : p.previous with
    | none =>
      have hprev : (p.shift k).previous = none := by
        unfold Pps.shift
        rw [hp]
        rfl
      rw [hprev]
      rfl
    | some q =>
      obtain ⟨seq, time⟩ := q
      have hprev : (p.shift k).previous = some (seq + k, time) := by
        unfold Pps.shift
        rw [hp]
        rfl
      have hdelta : (s.shift k).sequence - (seq + k) = s.sequence - seq := sequence_sub _ _ _
      rw [hprev]
      dsimp only
      rw [hdelta, shift_sequenceRestart, shift_reject, shift_reject, shift_accountSequence,
        shift_reject]
      show (if _ then _ else if _ then _ else if 1 / 10 <
        |((sub s.time time : ℤ) : K) / 1000000000 - _| then _ else _) = _
      split_ifs <;> rfl

theorem shift_screen (cfg : PpsConfig K) {k : UInt32} (p : Pps K) (hs : s.sequence ≠ 0)
    (hk : s.sequence + k ≠ 0) :
    (p.shift k).screen cfg (s.shift k) = ((p.screen cfg s).1.shift k, (p.screen cfg s).2) := by
  unfold Pps.screen
  rw [shift_checkSequence p hs hk]
  dsimp only
  have hgate := shift_spikeGate cfg k (p.checkSequence s).1 s.sequence
  have hseq : (s.shift k).sequence = s.sequence + k := rfl
  have htime : (s.shift k).time = s.time := rfl
  rw [hseq, htime, hgate, shift_reject]
  split_ifs <;> rfl

/-- **An edge does the same from any start of the counter.** -/
theorem shift_accept (cfg : PpsConfig K) {k : UInt32} (p : Pps K) (hs : s.sequence ≠ 0)
    (hk : s.sequence + k ≠ 0) :
    (p.shift k).accept cfg (s.shift k) = ((p.accept cfg s).1.shift k, (p.accept cfg s).2) := by
  have hevaluate : ∀ p : Pps K, (p.shift k).evaluate cfg (s.shift k) =
      ((p.evaluate cfg s).1.shift k, (p.evaluate cfg s).2) := by
    intro p
    unfold Pps.evaluate
    dsimp only
    by_cases hslots : p.slots < 2 ^ p.poll.toNat
    · rw [if_pos hslots, if_pos (show (p.shift k).slots < 2 ^ (p.shift k).poll.toNat from hslots)]
    · rw [if_neg hslots, if_neg (show ¬(p.shift k).slots < 2 ^ (p.shift k).poll.toNat from hslots)]
      rfl
  unfold Pps.accept
  rw [shift_screen cfg p hs hk]
  dsimp only
  split_ifs
  · have happend := shift_appendWindow cfg k
      { (p.screen cfg s).1 with rejectRun := 0, reach := (p.screen cfg s).1.reach <<< 1 ||| 1 }
      s.sequence (edgeOffset s.time)
    rw [← hevaluate, ← happend]
    rfl
  · rfl

/-- A turn does the same from any start of the counter. -/
theorem shift_turn (cfg : PpsConfig K) {k : UInt32} (p : Pps K) {t : PpsTurn K}
    (ht : ∀ s gen, t = .pulse s gen → s.sequence ≠ 0 ∧ s.sequence + k ≠ 0) :
    (p.shift k).turn cfg (t.shift k) = ((p.turn cfg t).1.shift k, (p.turn cfg t).2) := by
  cases t with
  | pulse s gen =>
    obtain ⟨hs, hk⟩ := ht s gen rfl
    unfold PpsTurn.shift Pps.turn
    dsimp only
    rw [shift_accept cfg p hs hk]
    rfl
  | timeout now gen =>
    unfold PpsTurn.shift Pps.turn
    dsimp only
    rw [shift_timeout]
    rfl
  | reset => rfl
  | discard now gen => rfl
  | lost now gen => rfl
  | reopened => rfl

/-- **The start of the counter does not show.**  In every run of the PPS clock, with the
same constant added to the number of every edge, the same measurements are emitted, if no
edge has the number zero before or after that. -/
theorem emissions_shift (cfg : PpsConfig K) (k : UInt32) (turns : List (PpsTurn K))
    (hturns : ∀ s gen, .pulse s gen ∈ turns → s.sequence ≠ 0 ∧ s.sequence + k ≠ 0) :
    (Pps.new cfg).emissions cfg (turns.map (PpsTurn.shift k)) =
    (Pps.new cfg).emissions cfg turns := by
  have hrun : ∀ (turns : List (PpsTurn K)) (p : Pps K),
      (∀ s gen, .pulse s gen ∈ turns → s.sequence ≠ 0 ∧ s.sequence + k ≠ 0) →
      (p.shift k).emissions cfg (turns.map (PpsTurn.shift k)) = p.emissions cfg turns := by
    intro turns
    induction turns with
    | nil => exact fun p _ => rfl
    | cons t turns ih =>
      intro p hturns
      have ht : ∀ s gen, t = .pulse s gen → s.sequence ≠ 0 ∧ s.sequence + k ≠ 0 :=
        fun s gen h => hturns s gen (h ▸ List.mem_cons_self)
      rw [List.map_cons, Pps.emissions, Pps.emissions, shift_turn cfg p ht,
        ih _ fun s gen h => hturns s gen (List.mem_cons_of_mem t h)]
  exact hrun turns (.new cfg) hturns

/-- Two edges, a second without one, and two more. -/
def gapTurns : List (PpsTurn ℚ) :=
  [.pulse ⟨1, second, 1, 1⟩ 2, .pulse ⟨2, 2 * second, 2, 2⟩ 2, .timeout 3 2,
    .pulse ⟨4, 4 * second, 4, 4⟩ 2, .pulse ⟨5, 5 * second, 5, 5⟩ 2]

/-- The counter of these edges may as well wrap around during the second without one. -/
theorem emissions_shift_wrap :
    (Pps.new pulsar).emissions pulsar (gapTurns.map (PpsTurn.shift 4294967293)) =
      (Pps.new pulsar).emissions pulsar gapTurns ∧
    ((Pps.new pulsar).emissions pulsar gapTurns).map (fun m => m.reach) = [1, 3, 6, 13, 27] := by
  refine ⟨emissions_shift pulsar 4294967293 gapTurns ?_, by decide +kernel⟩
  intro s gen hs
  simp only [gapTurns, List.mem_cons, PpsTurn.pulse.injEq, reduceCtorEq, List.not_mem_nil, or_false,
    false_or] at hs
  rcases hs with ⟨rfl, -⟩ | ⟨rfl, -⟩ | ⟨rfl, -⟩ | ⟨rfl, -⟩ <;> decide

/-! ## The reach register -/

/-- The register after more bits, one for each second. -/
def shiftIn (reach : UInt8) (bits : List Bool) : UInt8 :=
  bits.foldl (fun r b => r <<< 1 ||| if b then 1 else 0) reach

theorem shiftIn_append (reach : UInt8) (bits bits' : List Bool) :
    shiftIn reach (bits ++ bits') = shiftIn (shiftIn reach bits) bits' :=
  List.foldl_append

theorem shiftIn_false (reach : UInt8) : shiftIn reach [false] = reach <<< 1 := by
  show reach <<< 1 ||| (0 : UInt8) = reach <<< 1
  exact UInt8.or_zero

theorem shiftIn_zero (reach : UInt8) (n : ℕ) :
    shiftIn reach (List.replicate (n + 1) false) = shiftIn reach
      (List.replicate n false) <<< 1 := by
  rw [List.replicate_succ', shiftIn_append, shiftIn_false]

/-- Zero bits multiply the register by powers of two. -/
theorem toNat_shiftIn_zeros (reach : UInt8) (n : ℕ) :
    (shiftIn reach (List.replicate n false)).toNat = reach.toNat * 2 ^ n % 256 := by
  induction n with
  | zero =>
    rw [pow_zero, Nat.mul_one, Nat.mod_eq_of_lt reach.toNat_lt]
    rfl
  | succ n ih =>
    rw [shiftIn_zero, UInt8.toNat_shiftLeft, ih]
    show (reach.toNat * 2 ^ n % 256) <<< 1 % 256 = _
    rw [Nat.shiftLeft_eq, pow_one, Nat.mod_mul_mod, pow_succ, Nat.mul_assoc]

/-- `shiftReach` enters zero bits, also when there are more of them than the register has
places. -/
theorem shiftReach_eq (reach : UInt8) (n : ℕ) :
    shiftReach reach n = shiftIn reach (List.replicate n false) := by
  apply UInt8.toNat_inj.mp
  rw [toNat_shiftIn_zeros]
  unfold shiftReach reachBits
  split_ifs with hn
  · obtain ⟨m, rfl⟩ := Nat.exists_eq_add_of_le hn
    have hmul : reach.toNat * 2 ^ (8 + m) = reach.toNat * 2 ^ m * 256 := by
      rw [pow_add]
      ring
    rw [hmul, Nat.mul_mod_left]
    rfl
  · have hsmall : (UInt8.ofNat n).toNat % 8 = n := by
      rw [UInt8.toNat_ofNat']
      omega
    rw [UInt8.toNat_shiftLeft, hsmall, Nat.shiftLeft_eq]

/-- Some seconds without an edge, and an edge. -/
structure Round (K : Type) where
  /-- For each timeout, the clock and the epoch of its measurement. -/
  timeouts : List (K × ℕ)
  pulse : Pulse K
  gen : ℕ

omit [Field K] [LinearOrder K] in
/-- The turns of a round. -/
def Round.turns (r : Round K) : List (PpsTurn K) :=
  (r.timeouts.map fun t => .timeout t.1 t.2) ++ [.pulse r.pulse r.gen]

/-- The edge is accepted after the timeouts: its measurement says that it was acquired. -/
def Round.accepted (cfg : PpsConfig K) (p : Pps K) (r : Round K) : Bool :=
  ((p.after cfg (r.timeouts.map fun t => .timeout t.1 t.2)).accept cfg r.pulse).2.acquired

omit [Field K] [LinearOrder K] in
/-- By how much the number of the edge advances; by one if there was none before it. -/
def advance (previous : Option UInt32) (s : Pulse K) : ℕ :=
  (previous.elim 1 fun seq => s.sequence - seq).toNat

omit [Field K] [LinearOrder K] in
/-- The number of the last edge. -/
def Pps.previousSeq (p : Pps K) : Option UInt32 := p.previous.map Prod.fst

/-- What a round contributes to the register: zeros for the seconds that were missed, by
the count of timeouts or by the number of the edge, whichever is more, and one bit for the
edge. -/
def Round.bits (cfg : PpsConfig K) (p : Pps K) (r : Round K) : List Bool :=
  List.replicate (max (advance p.previousSeq r.pulse - 1) r.timeouts.length) false ++
    [r.accepted cfg p]

/-- The bits of a run of rounds. -/
def roundBits (cfg : PpsConfig K) : Pps K → List (Round K) → List Bool
  | _, [] => []
  | p, r :: rounds => r.bits cfg p ++ roundBits cfg (p.after cfg r.turns) rounds

omit [Field K] [LinearOrder K] in
/-- The edge has a number and a timestamp, and the number advances by no more than it does
without a restart of the device. -/
structure Expected (previous : Option UInt32) (s : Pulse K) : Prop where
  sequence_ne : s.sequence ≠ 0
  time_ne : s.time ≠ 0
  advance_pos : 1 ≤ advance previous s
  advance_le : advance previous s ≤ maxSequenceGap.toNat

omit [Field K] [LinearOrder K] in
/-- Every edge of the rounds is expected after the one before it. -/
def Advancing : Option UInt32 → List (Round K) → Prop
  | _, [] => True
  | previous, r :: rounds => Expected previous r.pulse ∧ Advancing (some r.pulse.sequence) rounds

/-- The timeouts of a round: each enters a zero and is pending. -/
theorem after_timeouts (cfg : PpsConfig K) (p : Pps K) (timeouts : List (K × ℕ)) :
    (p.after cfg (timeouts.map fun t => .timeout t.1 t.2)).reach =
        shiftIn p.reach (List.replicate timeouts.length false) ∧
      (p.after cfg (timeouts.map fun t => .timeout t.1 t.2)).pendingMisses =
        p.pendingMisses + timeouts.length ∧
      (p.after cfg (timeouts.map fun t => .timeout t.1 t.2)).previous = p.previous := by
  induction timeouts using List.reverseRecOn with
  | nil => exact ⟨rfl, rfl, rfl⟩
  | append_singleton timeouts t ih =>
    obtain ⟨hreach, hpending, hprevious⟩ := ih
    have hstep : ∀ (p : Pps K) (now : K) (gen : ℕ),
        (p.turn cfg (.timeout now gen)).1.reach = p.reach <<< 1 ∧
        (p.turn cfg (.timeout now gen)).1.pendingMisses = p.pendingMisses + 1 ∧
        (p.turn cfg (.timeout now gen)).1.previous = p.previous := by
      intro p now gen
      show p.timeout.reach = _ ∧ p.timeout.pendingMisses = _ ∧ p.timeout.previous = _
      unfold Pps.timeout
      dsimp only
      split_ifs <;> exact ⟨rfl, rfl, rfl⟩
    unfold Pps.after at hreach hpending hprevious ⊢
    rw [List.map_append, List.foldl_append, List.map_singleton, List.foldl_cons, List.foldl_nil,
      List.length_append, List.length_singleton, shiftIn_zero]
    obtain ⟨h1, h2, h3⟩ := hstep (List.foldl (fun p t => (p.turn cfg t).1) p
      (timeouts.map fun t => .timeout t.1 t.2)) t.1 t.2
    rw [h1, h2, h3, hreach, hpending, hprevious]
    exact ⟨rfl, rfl, rfl⟩

omit [Field K] [LinearOrder K] in
/-- A rejection enters a zero. -/
theorem reject_fields (p : Pps K) :
    p.reject.reach = p.reach <<< 1 ∧ p.reject.pendingMisses = p.pendingMisses ∧
      p.reject.previous = p.previous := by
  unfold Pps.reject
  dsimp only
  split_ifs <;> exact ⟨rfl, rfl, rfl⟩

omit [Field K] [LinearOrder K] in
/-- The seconds that are not counted yet enter zeros. -/
theorem accountSequence_reach (p : Pps K) (s : Pulse K) (delta : UInt32) :
    (p.accountSequence s delta).reach =
      shiftIn p.reach (List.replicate (delta.toNat - 1 - p.pendingMisses) false) := by
  unfold Pps.accountSequence
  dsimp only
  split_ifs with hpos
  · exact shiftReach_eq _ _
  · rw [Nat.eq_zero_of_not_pos hpos]
    rfl

/-- An expected edge is counted, and then it is rejected or it passes. -/
theorem screen_expected (cfg : PpsConfig K) {p : Pps K} (h : Expected p.previousSeq s) :
    ∃ delta : UInt32, delta.toNat = advance p.previousSeq s ∧
      (p.screen cfg s = ((p.accountSequence s delta).reject, false) ∨
        p.screen cfg s = (p.accountSequence s delta, true)) := by
  obtain ⟨hseq, htime, hpos, hle⟩ := h
  have hcheck : ∃ delta : UInt32, delta.toNat = advance p.previousSeq s ∧
      (p.checkSequence s = ((p.accountSequence s delta).reject, false) ∨
        p.checkSequence s = (p.accountSequence s delta, true)) := by
    unfold Pps.checkSequence
    rw [if_neg (not_or.mpr ⟨hseq, htime⟩)]
    cases hp : p.previous with
    | none =>
      refine ⟨1, ?_, .inr rfl⟩
      rw [Pps.previousSeq, hp]
      rfl
    | some q =>
      have hadvance : advance p.previousSeq s = (s.sequence - q.1).toNat := by
        rw [Pps.previousSeq, hp]
        rfl
      rw [hadvance] at hpos hle
      refine ⟨s.sequence - q.1, hadvance.symm, ?_⟩
      have hne : ¬s.sequence - q.1 = 0 := by
        intro h0
        rw [h0] at hpos
        exact absurd hpos (by decide)
      have hgap : ¬maxSequenceGap < s.sequence - q.1 :=
        fun hlt => absurd (UInt32.lt_iff_toNat_lt.mp hlt) (not_lt.mpr hle)
      dsimp only
      rw [if_neg hne, if_neg hgap]
      split_ifs
      · exact .inl rfl
      · exact .inr rfl
  obtain ⟨delta, hdelta, hcheck⟩ := hcheck
  refine ⟨delta, hdelta, ?_⟩
  unfold Pps.screen
  rcases hcheck with hcheck | hcheck
  · rw [hcheck]
    exact .inl rfl
  · rw [hcheck]
    dsimp only
    rw [if_pos rfl]
    split_ifs
    · exact .inl rfl
    · exact .inr rfl

/-- **An edge**: the seconds that were missed and not counted yet, and one bit. -/
theorem accept_reach (cfg : PpsConfig K) {p : Pps K} (h : Expected p.previousSeq s) :
    (p.accept cfg s).1.reach = shiftIn p.reach
        (List.replicate (advance p.previousSeq s - 1 - p.pendingMisses) false ++
          [(p.accept cfg s).2.acquired]) ∧
      (p.accept cfg s).1.pendingMisses = 0 ∧ (p.accept cfg s).1.previousSeq = some s.sequence := by
  obtain ⟨delta, hdelta, hscreen⟩ := screen_expected cfg h
  rw [← hdelta, shiftIn_append, ← accountSequence_reach p s delta]
  unfold Pps.accept
  rcases hscreen with hscreen | hscreen
  · obtain ⟨hreach, hpending, hprevious⟩ := reject_fields (p.accountSequence s delta)
    rw [hscreen]
    dsimp only
    rw [if_neg Bool.false_ne_true, hreach, hpending, Pps.previousSeq, hprevious]
    exact ⟨(shiftIn_false _).symm, rfl, rfl⟩
  · rw [hscreen]
    dsimp only
    rw [if_pos rfl]
    -- the end of `accept` touches the window, the slots and the poll only
    have hevaluate : ∀ q : Pps K, (q.evaluate cfg s).2.acquired = true ∧
        (q.evaluate cfg s).1.reach = q.reach ∧
        (q.evaluate cfg s).1.pendingMisses = q.pendingMisses ∧
        (q.evaluate cfg s).1.previous = q.previous := by
      intro q
      unfold Pps.evaluate
      dsimp only
      split_ifs <;> exact ⟨rfl, rfl, rfl, rfl⟩
    have happend : ∀ (q : Pps K) (seq : UInt32) (v : K),
        (q.appendWindow cfg seq v).reach = q.reach ∧
        (q.appendWindow cfg seq v).pendingMisses = q.pendingMisses ∧
        (q.appendWindow cfg seq v).previous = q.previous := by
      intro q seq v
      unfold Pps.appendWindow
      split_ifs <;> exact ⟨rfl, rfl, rfl⟩
    rw [Pps.previousSeq, (hevaluate _).1, (hevaluate _).2.1, (hevaluate _).2.2.1,
      (hevaluate _).2.2.2, (happend _ _ _).1, (happend _ _ _).2.1, (happend _ _ _).2.2]
    exact ⟨rfl, rfl, rfl⟩

/-- **A round** enters its bits, and leaves nothing pending. -/
theorem after_round (cfg : PpsConfig K) {p : Pps K} {r : Round K} (hpending : p.pendingMisses = 0)
    (h : Expected p.previousSeq r.pulse) :
    (p.after cfg r.turns).reach = shiftIn p.reach (r.bits cfg p) ∧
      (p.after cfg r.turns).pendingMisses = 0 ∧
      (p.after cfg r.turns).previousSeq = some r.pulse.sequence := by
  obtain ⟨hreach, hmisses, hprevious⟩ := after_timeouts cfg p r.timeouts
  have hafter : p.after cfg r.turns =
      ((p.after cfg (r.timeouts.map fun t => .timeout t.1 t.2)).turn cfg
        (.pulse r.pulse r.gen)).1 := by
    unfold Pps.after Round.turns
    rw [List.foldl_append, List.foldl_cons, List.foldl_nil]
  unfold Round.bits Round.accepted
  generalize p.after cfg (r.timeouts.map fun t => .timeout t.1 t.2) = q at *
  have hseq : q.previousSeq = p.previousSeq := by rw [Pps.previousSeq, hprevious, Pps.previousSeq]
  obtain ⟨h1, h2, h3⟩ := accept_reach cfg (hseq ▸ h)
  rw [hafter]
  refine ⟨?_, h2, h3⟩
  show (q.accept cfg r.pulse).1.reach = _
  -- the zeros of the timeouts, and those that the number adds
  have hzeros : max (advance p.previousSeq r.pulse - 1) r.timeouts.length =
      r.timeouts.length + (advance p.previousSeq r.pulse - 1 - r.timeouts.length) := by omega
  rw [h1, hreach, hmisses, hpending, Nat.zero_add, hseq, hzeros, List.replicate_add,
    List.append_assoc, shiftIn_append, shiftIn_append, shiftIn_append]

/-- **Every second is counted once.**  In every run of timeouts and edges whose numbers
advance, each edge after `k` timeouts whose number advances by `d` contributes
`max (d - 1) k` zeros and then one bit, set if the edge was accepted, to the register of
eight bits. -/
theorem reach_counts_once (cfg : PpsConfig K) (p : Pps K) (rounds : List (Round K))
    (hpending : p.pendingMisses = 0) (h : Advancing p.previousSeq rounds) :
    (p.after cfg (rounds.flatMap Round.turns)).reach = shiftIn p.reach
    (roundBits cfg p rounds) := by
  induction rounds generalizing p with
  | nil => rfl
  | cons r rounds ih =>
    obtain ⟨hexpected, hrest⟩ := h
    obtain ⟨hreach, hnone, hprevious⟩ := after_round cfg hpending hexpected
    have hsplit : p.after cfg ((r :: rounds).flatMap Round.turns) =
        (p.after cfg r.turns).after cfg (rounds.flatMap Round.turns) := by
      unfold Pps.after
      rw [List.flatMap_cons, List.foldl_append]
    rw [hsplit, ih _ hnone (by rw [hprevious]; exact hrest), hreach, roundBits, shiftIn_append]

/-- An edge; a timeout and an edge whose number advances by three. -/
def gapRounds : List (Round ℚ) :=
  [⟨[], ⟨1, second, 1, 1⟩, 2⟩, ⟨[(3, 2)], ⟨4, 4 * second, 4, 4⟩, 2⟩]

/-- Two seconds were missed, and one of them was seen as a timeout. -/
theorem reach_counts_once_gap :
    ((Pps.new pulsar).after pulsar (gapRounds.flatMap Round.turns)).reach =
      shiftIn 0 [true, false, false, true] := by
  have hadvancing : Advancing (Pps.new pulsar).previousSeq gapRounds :=
    ⟨⟨by decide, by decide, by decide, by decide⟩, ⟨by decide, by decide, by decide, by decide⟩,
      trivial⟩
  have hbits : roundBits pulsar (Pps.new pulsar) gapRounds = [true, false, false, true] := by
    decide +kernel
  rw [reach_counts_once pulsar (Pps.new pulsar) gapRounds rfl hadvancing, hbits]
  rfl

/-- The last edge but one before the counter wraps around. -/
def lastButOne : Pps ℚ := (Pps.new pulsar).after pulsar [.pulse ⟨4294967294, second, 1, 1⟩ 2]

/-- The edge with the number zero, two seconds later. -/
def zeroRound : Round ℚ := ⟨[], ⟨0, 3 * second, 3, 3⟩, 2⟩

/-- **The edge with the number zero is not counted**: its number advances by two, but the
second that was missed before it leaves no bit. -/
theorem reach_sequence_zero :
    advance lastButOne.previousSeq zeroRound.pulse = 2 ∧
    (lastButOne.after pulsar zeroRound.turns).reach = 2 ∧
    shiftIn lastButOne.reach (zeroRound.bits pulsar lastButOne) = 4 := by
  decide +kernel

end Carillon.Refclock
