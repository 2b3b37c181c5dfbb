/-
# The sources as workers of the epoch protocol

What an NTP or a PPS source does at each atomic step of its goroutine (`pollOnce` in
`source/ntp.go`, `Run` in `refclock/pps.go`), as drivers of the general worker.  The
filter holds the exchanges since its last reset, and the window the pulses since its
own; an estimate is what the filter, or the window's tail, makes of some of them.
-/
import Carillon.Lib.Epoch
import Carillon.Refclock.Pps

namespace Carillon

open Discipline (HasSqrt Measurement)
open Source (Exchange Ntp NtpConfig NtpEvent log2Seconds)
open Refclock (Pps PpsConfig PpsEvent Pulse edgeOffset emptyMeasurement windowEstimate windowTail)

variable {K : Type}

instance : Epoch.Report (Measurement K) where
  valid := Measurement.valid
  generation := Measurement.generation
  stamp m g := { m with generation := g }
  valid_stamp _ _ := rfl
  generation_stamp _ _ := rfl

variable [Field K] [LinearOrder K] [HasSqrt K]

/-! ## The NTP source -/

/-- `pollOnce`, cut at its atomic steps. -/
def ntpDriver (cfg : NtpConfig) :
    Epoch.Driver (Ntp K) (Exchange K) (Measurement K) (NtpEvent × K) where
  stamps := cfg.stamps
  sweeps := false
  ready n := !n.denied
  reset := Ntp.reset
  discard x n := (n.discardStale, n.discardStale.emit cfg none false x.now)
  add x n := ((n.hit cfg x).1, (n.hit cfg x).1.emit cfg (n.hit cfg x).2 true x.now)
  on e n := ((n.on cfg e.1).1,
    if (n.on cfg e.1).2 then some ((n.on cfg e.1).1.emit cfg none false e.2) else none)

/-- The filter after the replies since its last reset. -/
def register (cfg : NtpConfig) (xs : List (Exchange K)) : Discipline.Filter K :=
  xs.foldl (fun f x => (x.enter cfg f).1) (.new (log2Seconds cfg.precision))

/-- The filter holds exactly these replies. -/
def ntpHolds (cfg : NtpConfig) (n : Ntp K) (xs : List (Exchange K)) : Prop :=
  n.filter = register cfg xs

/-- The offset and the jitter are those of a filter that has seen only these replies. -/
def ntpEstimates (cfg : NtpConfig) (xs : List (Exchange K)) (m : Measurement K) : Prop :=
  ∃ x ∈ xs.getLast?, m.offset = (x.enter cfg (register cfg xs.dropLast)).2.1.offset ∧
    m.jitter = (x.enter cfg (register cfg xs.dropLast)).2.1.jitter

instance (cfg : NtpConfig) (xs : List (Exchange K)) (m : Measurement K) :
    Decidable (ntpEstimates cfg xs m) := by
  unfold ntpEstimates
  infer_instance

theorem register_floor (cfg : NtpConfig) (xs : List (Exchange K)) :
    (register cfg xs).floor = log2Seconds cfg.precision := by
  unfold register
  induction xs using List.reverseRecOn with
  | nil => rfl
  | append_singleton xs x ih =>
    rw [List.foldl_append, List.foldl_cons, List.foldl_nil, Exchange.enter, Discipline.add_floor]
    exact ih

theorem register_reset (cfg : NtpConfig) (xs : List (Exchange K)) :
    (register cfg xs).reset = register cfg [] := by
  unfold Discipline.Filter.reset
  rw [register_floor]
  rfl

omit [LinearOrder K] [HasSqrt K] in
/-- A change of stratum starts the filter over; nothing else before the filter touches
it. -/
theorem receive_filter (cfg : NtpConfig) (n : Ntp K) (x : Exchange K) :
    (n.receive cfg x).filter = n.filter ∨ (n.receive cfg x).filter = n.filter.reset := by
  have hnote : ∀ (n : Ntp K) (s : Source.StageMeta K), (n.noteMeta s).filter = n.filter := by
    intro n s
    unfold Ntp.noteMeta
    split <;> rfl
  unfold Ntp.receive
  dsimp only
  rw [hnote]
  dsimp only
  split
  · exact .inr rfl
  · exact .inl rfl

/-- A hit puts the reply into the filter, and reports what the filter makes of it. -/
theorem hit_spec (cfg : NtpConfig) (n : Ntp K) (x : Exchange K) :
    (n.hit cfg x).1.filter = (x.enter cfg (n.receive cfg x).filter).1 ∧
      ∀ s ∈ (n.hit cfg x).2, s.out = (x.enter cfg (n.receive cfg x).filter).2.1 := by
  unfold Ntp.hit
  dsimp only
  split
  · refine ⟨rfl, fun s hs => ?_⟩
    rw [← Option.some.inj hs]
  · exact ⟨rfl, fun s hs => absurd hs (Option.not_mem_none s)⟩

omit [LinearOrder K] [HasSqrt K] in
/-- A report is valid if there is a sample, and then reports it. -/
theorem emit_spec (cfg : NtpConfig) (n : Ntp K) (s : Option (Source.Sample K)) (acquired : Bool)
    (now : K) :
    (n.emit cfg s acquired now).valid = s.isSome ∧
      ∀ t ∈ s, (n.emit cfg s acquired now).offset = t.out.offset ∧
        (n.emit cfg s acquired now).jitter = t.out.jitter := by
  cases s with
  | none => exact ⟨rfl, fun t ht => absurd ht (Option.not_mem_none t)⟩
  | some s =>
    refine ⟨rfl, fun t ht => ?_⟩
    rw [← Option.some.inj ht]
    exact ⟨rfl, rfl⟩

omit [LinearOrder K] [HasSqrt K] in
/-- Apart from another address, nothing that happens to the poller touches the filter. -/
theorem on_filter (cfg : NtpConfig) (n : Ntp K) (e : NtpEvent) :
    (n.on cfg e).1.filter = n.filter ∨ (n.on cfg e).1.filter = n.filter.reset := by
  have hmiss : ∀ n : Ntp K, n.miss.filter = n.filter := by
    intro n
    unfold Ntp.miss
    dsimp only
    split <;> rfl
  cases e with
  | timeout => exact .inl (hmiss _)
  | miss => exact .inl (hmiss n)
  | kiss k =>
    refine .inl ?_
    cases k with
    | rate poll => exact hmiss _
    | deny authenticated =>
      cases authenticated with
      | false => exact hmiss n
      | true => exact hmiss _
    | other => exact hmiss n
  | endpoint peer => exact .inr rfl

/-- The filter is kept or started over. -/
theorem holds_of_filter {cfg : NtpConfig} {n n' : Ntp K} {xs : List (Exchange K)}
    (h : ntpHolds cfg n xs) (hfilter : n'.filter = n.filter ∨ n'.filter = n.filter.reset) :
    ∃ xs', xs'.Sublist xs ∧ ntpHolds cfg n' xs' := by
  rcases hfilter with hsame | hreset
  · exact ⟨xs, List.Sublist.refl _, hsame.trans h⟩
  · refine ⟨[], List.nil_sublist _, ?_⟩
    unfold ntpHolds
    rw [hreset, h, register_reset]

/-- **The NTP driver keeps the contract.** -/
theorem ntpDriver_lawful (cfg : NtpConfig) :
    (ntpDriver (K := K) cfg).Lawful (ntpHolds cfg) (ntpEstimates cfg) where
  reset n xs h := by
    show n.filter.reset = register cfg []
    rw [h, register_reset]
  discard n xs x h := holds_of_filter h (.inl rfl)
  discard_valid _ _ := rfl
  on n xs e h := holds_of_filter h (on_filter cfg n e.1)
  on_valid n e m hm := by
    unfold ntpDriver at hm
    dsimp only at hm
    split at hm
    · rw [← Option.some.inj hm]
      rfl
    · exact absurd hm (Option.not_mem_none m)
  add n xs x h := by
    obtain ⟨hfilter, hout⟩ := hit_spec cfg n x
    have hkept : ∃ xs', xs'.Sublist xs ∧ ntpHolds cfg (n.receive cfg x) xs' :=
      holds_of_filter h (receive_filter cfg n x)
    obtain ⟨xs', hsub, hregister⟩ := hkept
    rw [hregister] at hfilter hout
    refine ⟨xs' ++ [x], hsub.append (List.Sublist.refl _), ?_, fun hvalid => ?_⟩
    · show (n.hit cfg x).1.filter = register cfg (xs' ++ [x])
      rw [hfilter, register, register, List.foldl_append, List.foldl_cons, List.foldl_nil]
    · refine ⟨xs' ++ [x], List.Sublist.refl _, x, by simp, ?_⟩
      rw [List.dropLast_concat]
      obtain ⟨hsome, hvalues⟩ := emit_spec cfg (n.hit cfg x).1 (n.hit cfg x).2 true x.now
      obtain ⟨s, hs⟩ := Option.isSome_iff_exists.mp (hsome.symm.trans hvalid)
      rw [← hout s hs]
      exact hvalues s hs
  stamp xs m g h := h

/-! ## The PPS source -/

section Pps

omit [HasSqrt K]

/-- `Run`, cut at its atomic steps. -/
def ppsDriver (cfg : PpsConfig K) :
    Epoch.Driver (Pps K) (Pulse K) (Measurement K) (PpsEvent K) where
  stamps := cfg.stamps
  sweeps := true
  ready _ := true
  reset := Pps.resetWindow
  discard s p := p.resetWindow.emit (emptyMeasurement cfg) s.now
  add s p := (p.accept cfg s).1.emit (p.accept cfg s).2 s.now
  on e p := match e with
    | .timeout now =>
      let r := p.timeout.emit (emptyMeasurement cfg) now
      (r.1, some r.2)
    | .deviceLost now =>
      let r := p.deviceLost.emit (emptyMeasurement cfg) now
      (r.1, some r.2)
    | .reopened => (p.deviceLost, none)

/-- The window holds the offsets of exactly these pulses. -/
def ppsHolds (p : Pps K) (ss : List (Pulse K)) : Prop :=
  p.window = ss.map fun s => edgeOffset s.time

/-- The offset and the jitter are those of a window with only these pulses. -/
def ppsEstimates (cfg : PpsConfig K) (ss : List (Pulse K)) (m : Measurement K) : Prop :=
  (m.offset, m.jitter) = windowEstimate cfg (ss.map fun s => edgeOffset s.time)

instance (cfg : PpsConfig K) (ss : List (Pulse K)) (m : Measurement K) :
    Decidable (ppsEstimates cfg ss m) := by
  unfold ppsEstimates
  infer_instance

omit [Field K] [LinearOrder K] in
theorem reject_window (p : Pps K) : p.reject.window = p.window ∨ p.reject.window = [] := by
  unfold Pps.reject
  dsimp only
  split
  · exact .inr rfl
  · exact .inl rfl

/-- A check keeps the window or empties it. -/
theorem checkSequence_window (p : Pps K) (s : Pulse K) :
    (p.checkSequence s).1.window = p.window ∨ (p.checkSequence s).1.window = [] := by
  unfold Pps.checkSequence
  split
  · exact reject_window p
  · split
    · exact .inl rfl
    · dsimp only
      split
      · exact reject_window p
      · split
        · refine .inr ?_
          rcases reject_window (p.sequenceRestart s) with h | h
          · exact h
          · exact h
        · split
          · exact reject_window (p.accountSequence s _)
          · exact .inl rfl

theorem screen_window (cfg : PpsConfig K) (p : Pps K) (s : Pulse K) :
    (p.screen cfg s).1.window = p.window ∨ (p.screen cfg s).1.window = [] := by
  have hcheck := checkSequence_window p s
  unfold Pps.screen
  dsimp only
  generalize p.checkSequence s = r at hcheck
  split
  · split
    · rcases reject_window r.1 with h | h
      · exact hcheck.imp h.trans h.trans
      · exact .inr h
    · exact hcheck
  · exact hcheck

omit [Field K] [LinearOrder K] in
/-- An offset enters at the end; a full window lets its first go. -/
theorem appendWindow_window (cfg : PpsConfig K) (p : Pps K) (seq : UInt32) (v : K) :
    ∃ kept, kept.Sublist p.window ∧ (p.appendWindow cfg seq v).window = kept ++ [v] := by
  unfold Pps.appendWindow
  split
  · exact ⟨p.window.tail, List.tail_sublist _, rfl⟩
  · exact ⟨p.window, List.Sublist.refl _, rfl⟩

/-- A valid report is the estimate of the window. -/
theorem evaluate_spec (cfg : PpsConfig K) (p : Pps K) (s : Pulse K) :
    (p.evaluate cfg s).1.window = p.window ∧
      ((p.evaluate cfg s).2.valid = true →
        ((p.evaluate cfg s).2.offset, (p.evaluate cfg s).2.jitter)
          = windowEstimate cfg (windowTail p.window (2 ^ p.poll.toNat))) := by
  unfold Pps.evaluate
  dsimp only
  split
  · exact ⟨rfl, fun h => absurd h Bool.false_ne_true⟩
  · exact ⟨rfl, fun _ => rfl⟩

/-- The window after an edge, and what an estimate is made from. -/
theorem accept_spec (cfg : PpsConfig K) (p : Pps K) (s : Pulse K) :
    (p.accept cfg s).1.window.Sublist (p.window ++ [edgeOffset s.time]) ∧
      ((p.accept cfg s).2.valid = true → ∃ values : List K,
        values.Sublist (p.accept cfg s).1.window ∧
        ((p.accept cfg s).2.offset, (p.accept cfg s).2.jitter) = windowEstimate cfg values) := by
  have hscreen : (p.screen cfg s).1.window.Sublist p.window := by
    rcases screen_window cfg p s with h | h
    · rw [h]
    · rw [h]
      exact List.nil_sublist _
  unfold Pps.accept
  dsimp only
  generalize p.screen cfg s = r at hscreen
  split
  · obtain ⟨kept, hkept, hwindow⟩ := appendWindow_window cfg
      { r.1 with rejectRun := 0, reach := r.1.reach <<< 1 ||| 1 } s.sequence (edgeOffset s.time)
    generalize Pps.appendWindow cfg { r.1 with rejectRun := 0, reach := r.1.reach <<< 1 ||| 1 }
      s.sequence (edgeOffset s.time) = q at hwindow
    obtain ⟨hsame, hestimate⟩ := evaluate_spec cfg q s
    refine ⟨?_, fun hvalid => ⟨_, ?_, hestimate hvalid⟩⟩
    · rw [hsame, hwindow]
      exact (hkept.trans hscreen).append (List.Sublist.refl _)
    · rw [hsame]
      exact List.drop_sublist _ _
  · exact ⟨hscreen.trans (List.sublist_append_left _ _), fun h => absurd h Bool.false_ne_true⟩

omit [Field K] [LinearOrder K] in
theorem timeout_window (p : Pps K) : p.timeout.window = p.window ∨ p.timeout.window = [] := by
  unfold Pps.timeout
  dsimp only
  split
  · exact .inr rfl
  · exact .inl rfl

/-- The window is kept or emptied. -/
theorem holds_of_window {p p' : Pps K} {ss : List (Pulse K)} (h : ppsHolds p ss)
    (hwindow : p'.window = p.window ∨ p'.window = []) :
    ∃ ss', ss'.Sublist ss ∧ ppsHolds p' ss' := by
  rcases hwindow with hsame | hempty
  · exact ⟨ss, List.Sublist.refl _, hsame.trans h⟩
  · exact ⟨[], List.nil_sublist _, hempty⟩

/-- **The PPS driver keeps the contract.** -/
theorem ppsDriver_lawful (cfg : PpsConfig K) :
    (ppsDriver cfg).Lawful ppsHolds (ppsEstimates cfg) where
  reset p ss h := rfl
  discard p ss s h := holds_of_window h (.inr rfl)
  discard_valid _ _ := rfl
  on p ss e h := by
    cases e with
    | timeout now => exact holds_of_window h (timeout_window p)
    | deviceLost now => exact holds_of_window h (.inr rfl)
    | reopened => exact holds_of_window h (.inr rfl)
  on_valid p e m hm := by
    cases e with
    | timeout now =>
      rw [← Option.some.inj hm]
      rfl
    | deviceLost now =>
      rw [← Option.some.inj hm]
      rfl
    | reopened => exact absurd hm (Option.not_mem_none m)
  add p ss s h := by
    obtain ⟨hwindow, hestimate⟩ := accept_spec cfg p s
    rw [h, show ss.map (fun s => edgeOffset s.time) ++ [edgeOffset s.time]
      = (ss ++ [s]).map fun s => edgeOffset s.time by simp] at hwindow
    obtain ⟨kept, hkept, hholds⟩ := List.sublist_map_iff.mp hwindow
    refine ⟨kept, hkept, hholds, fun hvalid => ?_⟩
    obtain ⟨values, hvalues, heq⟩ := hestimate hvalid
    rw [hholds] at hvalues
    obtain ⟨used, hused, rfl⟩ := List.sublist_map_iff.mp hvalues
    exact ⟨used, hused, heq⟩
  stamp ss m g h := h

end Pps

end Carillon
