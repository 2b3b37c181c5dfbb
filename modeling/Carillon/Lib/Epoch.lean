/-
# An epoch counter that guards accumulated observations

A controller now and then changes what its workers observe.  It counts the beginning and
the end of every change, so that the counter is odd while one is going on.  A worker
reads the counter before and after an observation, keeps observations in an accumulator
from one to the next, and stamps what it reports.  It is told to empty the accumulator
through a flag of its own, which the controller raises once per change.

The module has the worker's atomic steps and one invariant, with a rule for every way the
worker or the controller can move: `Worker.Inv.step`, and `begin_`, `finish`, `raise` for
the controller.  `owed` says that a change has begun whose flag is not raised yet.
-/
import Mathlib.Data.List.Sublists
import Mathlib.Order.Nat

namespace Epoch

/-! ## Workers -/

/-- An observation, with the epochs at its beginning and at its end. -/
structure Obs (ο : Type) where
  value : ο
  began : ℕ
  ended : ℕ
  deriving DecidableEq

/-- The observation was made in one epoch. -/
def Obs.Within {ο : Type} (o : Obs ο) (g : ℕ) : Prop := o.began = g ∧ o.ended = g

instance {ο : Type} (o : Obs ο) (g : ℕ) : Decidable (o.Within g) :=
  inferInstanceAs (Decidable (_ ∧ _))

/-- What a worker reports: an estimate or not, under an epoch. -/
class Report (μ : Type) where
  valid : μ → Bool
  generation : μ → ℕ
  stamp : μ → ℕ → μ
  valid_stamp : ∀ m g, valid (stamp m g) = valid m
  generation_stamp : ∀ m g, generation (stamp m g) = g

/-- What a worker does with its accumulator. -/
structure Driver (σ ο μ ε : Type) where
  /-- The worker reads the counter; otherwise it stamps zero. -/
  stamps : Bool
  /-- The worker looks at its flag before an observation as well. -/
  sweeps : Bool
  /-- The worker goes on observing. -/
  ready : σ → Bool
  reset : σ → σ
  /-- An observation that spans a change is not used. -/
  discard : ο → σ → σ × μ
  add : ο → σ → σ × μ
  /-- Anything else that happens to the worker. -/
  on : ε → σ → σ × Option μ

/-- Where a worker is: `g` is the epoch it read before the observation. -/
inductive Pc (ο μ : Type) where
  | idle
  | swept
  | began (g : ℕ)
  | observing (g start : ℕ)
  | observed (g : ℕ) (o : Obs ο)
  | checked (g : ℕ) (o : Obs ο)
  | swapped (g : ℕ) (o : Obs ο)
  | unstamped (m : μ)
  | emitting (m : μ)

/-- A worker; the log of what it has added to its accumulator is a ghost. -/
structure Worker (σ ο μ : Type) where
  acc : σ
  flag : Bool
  pc : Pc ο μ
  log : List (Obs ο)

/-- The atomic steps of a worker. -/
inductive Label (ο ε : Type) where
  | sweep
  | read
  | start
  | finish (v : ο)
  | on (e : ε)
  | reread
  | swap
  | add
  | stamp
  | send

variable {σ ο μ ε : Type}

/-- The epoch as the worker reads it. -/
def Driver.reading (D : Driver σ ο μ ε) (gen : ℕ) : ℕ := if D.stamps then gen else 0

/-- The accumulator after a look at the flag, which lowers it. -/
def Worker.swept (D : Driver σ ο μ ε) (w : Worker σ ο μ) : Worker σ ο μ :=
  { w with acc := if w.flag then D.reset w.acc else w.acc, flag := false }

/-- Something else happens, and is perhaps reported. -/
def Worker.interrupt (D : Driver σ ο μ ε) (w : Worker σ ο μ) (e : ε) : Worker σ ο μ :=
  { w with acc := (D.on e w.acc).1, pc := (D.on e w.acc).2.elim .idle .unstamped }

variable [Report μ]

/-- The observation enters the accumulator; an estimate is stamped with the epoch read
before the observation. -/
def Worker.added (D : Driver σ ο μ ε) (w : Worker σ ο μ) (g : ℕ) (o : Obs ο) : Worker σ ο μ :=
  let r := D.add o.value w.acc
  { w with
    acc := r.1
    log := w.log ++ [o]
    pc := if Report.valid r.2 then .emitting (Report.stamp r.2 g) else .unstamped r.2 }

/-- One atomic step of a worker, and what it sends. -/
def Worker.step (D : Driver σ ο μ ε) (gen : ℕ) (w : Worker σ ο μ) (l : Label ο ε) :
    Option (Worker σ ο μ × Option μ) :=
  match l, w.pc with
  | .sweep, .idle => if D.sweeps then some ({ w.swept D with pc := .swept }, none) else none
  | .read, .idle =>
    if !D.sweeps && D.ready w.acc then some ({ w with pc := .began (D.reading gen) },
      none) else none
  | .read, .swept =>
    if D.ready w.acc then some ({ w with pc := .began (D.reading gen) }, none) else none
  | .start, .began g => some ({ w with pc := .observing g gen }, none)
  | .finish v, .observing g b => some ({ w with pc := .observed g ⟨v, b, gen⟩ }, none)
  | .on e, .idle => some (w.interrupt D e, none)
  | .on e, .observing _ _ => some (w.interrupt D e, none)
  | .reread, .observed g o =>
    let now := D.reading gen
    if now ≠ g ∨ now % 2 = 1 then
      some ({ w with
        acc := (D.discard o.value w.acc).1, pc := .unstamped (D.discard o.value w.acc).2 }, none)
    else some ({ w with pc := .checked g o }, none)
  | .swap, .checked g o => some ({ w.swept D with pc := .swapped g o }, none)
  | .add, .swapped g o => some (w.added D g o, none)
  | .stamp, .unstamped m => some ({ w with pc := .emitting (Report.stamp m (D.reading gen)) }, none)
  | .send, .emitting m => some ({ w with pc := .idle }, some m)
  | _, _ => none

/-- Everything a step can do. -/
inductive Worker.Step (D : Driver σ ο μ ε) (gen : ℕ) (w : Worker σ ο μ) :
    Label ο ε → Worker σ ο μ → Option μ → Prop
  | sweep (pc : w.pc = .idle) : Step D gen w .sweep { w.swept D with pc := .swept } none
  | read (pc : w.pc = .idle ∨ w.pc = .swept) :
      Step D gen w .read { w with pc := .began (D.reading gen) } none
  | start {g : ℕ} (pc : w.pc = .began g) :
    Step D gen w .start { w with pc := .observing g gen } none
  | finish {g b : ℕ} (v : ο) (pc : w.pc = .observing g b) :
      Step D gen w (.finish v) { w with pc := .observed g ⟨v, b, gen⟩ } none
  | on (e : ε) : Step D gen w (.on e) (w.interrupt D e) none
  | discard {g : ℕ} {o : Obs ο} (pc : w.pc = .observed g o) :
      Step D gen w .reread { w with
        acc := (D.discard o.value w.acc).1, pc := .unstamped (D.discard o.value w.acc).2 } none
  | check {g : ℕ} {o : Obs ο} (pc : w.pc = .observed g o) (same : D.reading gen = g)
      (settled : D.reading gen % 2 = 0) : Step D gen w .reread { w with pc := .checked g o } none
  | swap {g : ℕ} {o : Obs ο} (pc : w.pc = .checked g o) :
      Step D gen w .swap { w.swept D with pc := .swapped g o } none
  | add {g : ℕ} {o : Obs ο} (pc : w.pc = .swapped g o) : Step D gen w .add (w.added D g o) none
  | stamp {m : μ} (pc : w.pc = .unstamped m) :
      Step D gen w .stamp { w with pc := .emitting (Report.stamp m (D.reading gen)) } none
  | send {m : μ} (pc : w.pc = .emitting m) : Step D gen w .send { w with pc := .idle } (some m)

theorem Worker.step_spec {D : Driver σ ο μ ε} {gen : ℕ} {w w' : Worker σ ο μ} {l : Label ο ε}
    {out : Option μ} (h : w.step D gen l = some (w', out)) : Worker.Step D gen w l w' out := by
  unfold Worker.step at h
  dsimp only at h
  split at h
  case h_1 _ _ hpc =>
    split at h
    · cases h
      exact .sweep hpc
    · cases h
  case h_2 _ _ hpc =>
    split at h
    · cases h
      exact .read (.inl hpc)
    · cases h
  case h_3 _ _ hpc =>
    split at h
    · cases h
      exact .read (.inr hpc)
    · cases h
  case h_4 _ _ g hpc =>
    cases h
    exact .start hpc
  case h_5 _ _ v g b hpc =>
    cases h
    exact .finish v hpc
  case h_6 _ _ e hpc =>
    cases h
    exact .on e
  case h_7 _ _ e _ _ hpc =>
    cases h
    exact .on e
  case h_8 _ _ g o hpc =>
    split at h
    · cases h
      exact .discard hpc
    case isFalse hnot =>
      cases h
      exact .check hpc (by tauto) (by omega)
  case h_9 _ _ g o hpc =>
    cases h
    exact .swap hpc
  case h_10 _ _ g o hpc =>
    cases h
    exact .add hpc
  case h_11 _ _ m hpc =>
    cases h
    exact .stamp hpc
  case h_12 _ _ m hpc =>
    cases h
    exact .send hpc
  case h_13 => cases h

/-! ## What the driver has to promise -/

/-- The accumulator holds observations, and an estimate is made from some of those it
holds. -/
structure Driver.Lawful (D : Driver σ ο μ ε) (Holds : σ → List ο → Prop)
    (Estimates : List ο → μ → Prop) : Prop where
  reset : ∀ s os, Holds s os → Holds (D.reset s) []
  discard : ∀ s os v, Holds s os → ∃ os', os'.Sublist os ∧ Holds (D.discard v s).1 os'
  discard_valid : ∀ s v, Report.valid (D.discard v s).2 = false
  on : ∀ s os e, Holds s os → ∃ os', os'.Sublist os ∧ Holds (D.on e s).1 os'
  on_valid : ∀ s e, ∀ m ∈ (D.on e s).2, Report.valid m = false
  add : ∀ s os v, Holds s os → ∃ os', os'.Sublist (os ++ [v]) ∧ Holds (D.add v s).1 os' ∧
    (Report.valid (D.add v s).2 = true → ∃ used, used.Sublist os' ∧ Estimates used (D.add v s).2)
  stamp : ∀ used m g, Estimates used m → Estimates used (Report.stamp m g)

/-! ## The invariant -/

section Invariant

variable (Holds : σ → List ο → Prop) (Estimates : List ο → μ → Prop)

/-- The report can be computed from observations made within the epoch alone. -/
def Supported (gen : ℕ) (log : List (Obs ο)) (m : μ) : Prop :=
  ∃ used : List (Obs ο), used.Sublist log ∧ (∀ o ∈ used, o.Within gen) ∧
    Estimates (used.map (·.value)) m

instance [∀ xs m, Decidable (Estimates xs m)] (gen : ℕ) (log : List (Obs ο)) (m : μ) :
    Decidable (Supported Estimates gen log m) :=
  decidable_of_iff (∃ used ∈ log.sublists, (∀ o ∈ used, o.Within gen) ∧
    Estimates (used.map (·.value)) m) (by simp [Supported, List.mem_sublists])

/-- A stamped estimate is of an earlier epoch, or supported by this one. -/
def Fresh (gen : ℕ) (log : List (Obs ο)) (m : μ) : Prop :=
  Report.valid m = true → Report.generation m ≠ 0 →
    Report.generation m ≤ gen ∧ (Report.generation m = gen → Supported Estimates gen log m)

/-- The accumulator holds observations of the present epoch only, and none while a
change is going on. -/
def Worker.Current (gen : ℕ) (w : Worker σ ο μ) : Prop :=
  ∃ os : List (Obs ο), os.Sublist w.log ∧ Holds w.acc (os.map (·.value)) ∧
    ∀ o ∈ os, o.Within gen ∧ gen % 2 = 0

/-- What is known where the worker is.  A swapped worker that still observed the present
epoch has nothing to empty; otherwise it has yet to be told to. -/
def Pc.Inv (D : Driver σ ο μ ε) (gen : ℕ) (owed flag : Bool) (log : List (Obs ο)) : Pc ο μ → Prop
  | .idle | .swept => True
  | .began g => D.stamps = true → g ≤ gen
  | .observing g b => D.stamps = true → g ≤ b ∧ b ≤ gen
  | .observed g o => D.stamps = true → g ≤ o.began ∧ o.began ≤ o.ended ∧ o.ended ≤ gen
  | .checked g o => D.stamps = true → o.Within g ∧ g % 2 = 0 ∧ g ≤ gen
  | .swapped g o => D.stamps = true → o.Within g ∧ g % 2 = 0 ∧ g ≤ gen ∧
      (g = gen → owed = false ∧ flag = false) ∧ (g ≠ gen → owed = true ∨ flag = true)
  | .unstamped m => Report.valid m = false
  | .emitting m => Fresh Estimates gen log m

/-- The epoch the worker has read, where it has read one. -/
def Pc.epoch : Pc ο μ → Option ℕ
  | .began g | .observing g _ | .observed g _ | .checked g _ | .swapped g _ => some g
  | .idle | .swept | .unstamped _ | .emitting _ => none

/-- The invariant of a worker. -/
structure Worker.Inv (D : Driver σ ο μ ε) (gen : ℕ) (owed : Bool) (w : Worker σ ο μ) : Prop where
  /-- A worker that does not read the counter stamps zero. -/
  zero : D.stamps = false → ∀ g ∈ w.pc.epoch, g = 0
  holds : ∃ os, Holds w.acc os
  held : D.stamps = true → owed = true ∨ w.flag = true ∨ w.Current Holds gen
  pc : w.pc.Inv Estimates D gen owed w.flag w.log

/-- The two orders of a swap that are safe: in the epoch of the observation when no flag
is outstanding, or after a change has begun whose flag is still to come. -/
def Worker.SwapOk (D : Driver σ ο μ ε) (gen : ℕ) (owed : Bool) (w : Worker σ ο μ) :
    Label ο ε → Prop
  | .swap => ∀ g ∈ w.pc.epoch, D.stamps = true →
      (g = gen ∧ owed = false) ∨ (g ≠ gen ∧ owed = true)
  | _ => True

instance (D : Driver σ ο μ ε) (gen : ℕ) (owed : Bool) (w : Worker σ ο μ) (l : Label ο ε) :
    Decidable (w.SwapOk D gen owed l) := by
  cases l <;> unfold Worker.SwapOk <;> infer_instance

end Invariant

variable {Holds : σ → List ο → Prop} {Estimates : List ο → μ → Prop}

omit [Report μ] in
theorem Supported.mono {gen : ℕ} {log log' : List (Obs ο)} {m : μ}
    (h : Supported Estimates gen log m) (hlog : log.Sublist log') :
    Supported Estimates gen log' m := by
  obtain ⟨used, hused, hwithin, hest⟩ := h
  exact ⟨used, hused.trans hlog, hwithin, hest⟩

theorem Fresh.mono {gen : ℕ} {log log' : List (Obs ο)} {m : μ} (h : Fresh Estimates gen log m)
    (hlog : log.Sublist log') : Fresh Estimates gen log' m := by
  intro hvalid hstamp
  obtain ⟨hle, hsupported⟩ := h hvalid hstamp
  exact ⟨hle, fun heq => (hsupported heq).mono hlog⟩

/-- A report of an epoch that is over is none of the next. -/
theorem Fresh.later {gen : ℕ} {log : List (Obs ο)} {m : μ} (h : Fresh Estimates gen log m) :
    Fresh Estimates (gen + 1) log m := by
  intro hvalid hstamp
  have hle := (h hvalid hstamp).1
  exact ⟨by omega, fun heq => by omega⟩

/-! ## The controller's moves -/

omit [Report μ] in
/-- Between two changes of the counter nothing is held. -/
theorem Worker.Current.of_odd {gen : ℕ} {w : Worker σ ο μ} (h : w.Current Holds gen)
    (hodd : gen % 2 = 1) (gen' : ℕ) : w.Current Holds gen' := by
  obtain ⟨os, hsub, hholds, hwithin⟩ := h
  refine ⟨os, hsub, hholds, fun o ho => ?_⟩
  have := (hwithin o ho).2
  omega

variable {D : Driver σ ο μ ε} {gen : ℕ} {owed : Bool} {w w' : Worker σ ο μ} {pc : Pc ο μ}

/-- The counter moves on, to begin a change or to end one. -/
theorem Pc.Inv.later {owed' flag : Bool} {log : List (Obs ο)}
    (h : pc.Inv Estimates D gen owed flag log) (howed : owed' = true ∨ owed' = owed ∧ gen % 2 = 1) :
    pc.Inv Estimates D (gen + 1) owed' flag log := by
  cases pc with
  | idle => trivial
  | swept => trivial
  | began g => exact fun hs => Nat.le_succ_of_le (h hs)
  | observing g b => exact fun hs => ⟨(h hs).1, Nat.le_succ_of_le (h hs).2⟩
  | observed g o => exact fun hs => ⟨(h hs).1, (h hs).2.1, Nat.le_succ_of_le (h hs).2.2⟩
  | checked g o => exact fun hs => ⟨(h hs).1, (h hs).2.1, Nat.le_succ_of_le (h hs).2.2⟩
  | swapped g o =>
    intro hs
    obtain ⟨hwithin, heven, hle, -, hother⟩ := h hs
    refine ⟨hwithin, heven, Nat.le_succ_of_le hle, fun heq => by omega, fun _ => ?_⟩
    rcases howed with rfl | ⟨rfl, hodd⟩
    · exact .inl rfl
    · exact hother (by omega)
  | unstamped m => exact h
  | emitting m => exact Fresh.later h

/-- A change begins: every worker is owed a flag. -/
theorem Worker.Inv.begin_ (h : w.Inv Holds Estimates D gen owed) :
    w.Inv Holds Estimates D (gen + 1) true :=
  ⟨h.zero, h.holds, fun _ => .inl rfl, h.pc.later (.inl rfl)⟩

/-- A change ends. -/
theorem Worker.Inv.finish (h : w.Inv Holds Estimates D gen owed) (hodd : gen % 2 = 1) :
    w.Inv Holds Estimates D (gen + 1) owed := by
  refine ⟨h.zero, h.holds, fun hs => ?_, h.pc.later (.inr ⟨rfl, hodd⟩)⟩
  rcases h.held hs with howed | hflag | hcurrent
  · exact .inl howed
  · exact .inr (.inl hflag)
  · exact .inr (.inr (hcurrent.of_odd hodd _))

theorem Pc.Inv.raise {flag : Bool} {log : List (Obs ο)} (h : pc.Inv Estimates D gen true flag log) :
    pc.Inv Estimates D gen false true log := by
  cases pc with
  | swapped g o =>
    intro hs
    obtain ⟨hwithin, heven, hle, hsame, -⟩ := h hs
    exact ⟨hwithin, heven, hle, fun heq => absurd (hsame heq).1 (by decide), fun _ => .inr rfl⟩
  | idle => trivial
  | swept => trivial
  | began g => exact h
  | observing g b => exact h
  | observed g o => exact h
  | checked g o => exact h
  | unstamped m => exact h
  | emitting m => exact h

/-- The flag that is owed is raised. -/
theorem Worker.Inv.raise (h : w.Inv Holds Estimates D gen true) :
    ({ w with flag := true } : Worker σ ο μ).Inv Holds Estimates D gen false :=
  ⟨h.zero, h.holds, fun _ => .inr (.inl rfl), h.pc.raise⟩

/-! ## The worker's moves -/

/-- A worker that keeps its accumulator, its flag and its log. -/
theorem Worker.Inv.move (h : w.Inv Holds Estimates D gen owed)
    (hzero : D.stamps = false → ∀ g ∈ pc.epoch, g = 0)
    (hpc : pc.Inv Estimates D gen owed w.flag w.log) :
    ({ w with pc := pc } : Worker σ ο μ).Inv Holds Estimates D gen owed :=
  ⟨hzero, h.holds, h.held, hpc⟩

/-- What the accumulator lets go leaves it as current as it was. -/
theorem Worker.Inv.forget (h : w.Inv Holds Estimates D gen owed) {acc : σ}
    (hacc : ∀ os, Holds w.acc os → ∃ os', os'.Sublist os ∧ Holds acc os') (hepoch : pc.epoch = none)
    (hpc : pc.Inv Estimates D gen owed w.flag w.log) :
    ({ w with acc := acc, pc := pc } : Worker σ ο μ).Inv Holds Estimates D gen owed := by
  refine ⟨fun _ g hg => ?_, ?_, fun hs => ?_, hpc⟩
  · rw [hepoch] at hg
    exact absurd hg (Option.not_mem_none g)
  · obtain ⟨os, hos⟩ := h.holds
    obtain ⟨os', -, hos'⟩ := hacc os hos
    exact ⟨os', hos'⟩
  · rcases h.held hs with howed | hflag | ⟨os, hsub, hholds, hwithin⟩
    · exact .inl howed
    · exact .inr (.inl hflag)
    · obtain ⟨os', hos', hholds'⟩ := hacc _ hholds
      obtain ⟨kept, hkept, rfl⟩ := List.sublist_map_iff.mp hos'
      exact .inr (.inr ⟨kept, hkept.trans hsub, hholds',
        fun o ho => hwithin o (hkept.subset ho)⟩)

/-- After a look at the flag, a worker that is not owed one holds the present epoch. -/
theorem Worker.Current.swept (hD : D.Lawful Holds Estimates) (hholds : ∃ os, Holds w.acc os)
    (h : w.flag = true ∨ w.Current Holds gen) : (w.swept D).Current Holds gen := by
  by_cases hflag : w.flag = true
  · refine ⟨[], List.nil_sublist _, ?_, fun o ho => absurd ho List.not_mem_nil⟩
    show Holds (if w.flag then D.reset w.acc else w.acc) []
    rw [if_pos hflag]
    obtain ⟨os, hos⟩ := hholds
    exact hD.reset w.acc os hos
  · obtain ⟨os, hsub, hos, hwithin⟩ := h.resolve_left hflag
    refine ⟨os, hsub, ?_, hwithin⟩
    show Holds (if w.flag then D.reset w.acc else w.acc) _
    rw [if_neg hflag]
    exact hos

theorem Worker.Inv.swept (hD : D.Lawful Holds Estimates) (h : w.Inv Holds Estimates D gen owed)
    (hzero : D.stamps = false → ∀ g ∈ pc.epoch, g = 0)
    (hpc : pc.Inv Estimates D gen owed false w.log) :
    ({ w.swept D with pc := pc } : Worker σ ο μ).Inv Holds Estimates D gen owed := by
  refine ⟨hzero, ?_, fun hs => ?_, hpc⟩
  · obtain ⟨os, hos⟩ := h.holds
    show ∃ os, Holds (if w.flag then D.reset w.acc else w.acc) os
    split
    · exact ⟨[], hD.reset w.acc os hos⟩
    · exact ⟨os, hos⟩
  · rcases h.held hs with howed | hrest
    · exact .inl howed
    · exact .inr (.inr (Worker.Current.swept (w := w) hD h.holds hrest))

/-- Adding an observation of the present epoch to what is current. -/
theorem Worker.Current.added (hD : D.Lawful Holds Estimates) (h : w.Current Holds gen) {g : ℕ}
    {o : Obs ο} (ho : o.Within gen) (heven : gen % 2 = 0) :
    (w.added D g o).Current Holds gen ∧ (Report.valid (D.add o.value w.acc).2 = true →
      Supported Estimates gen (w.log ++ [o]) (Report.stamp (D.add o.value w.acc).2 g)) := by
  obtain ⟨os, hsub, hholds, hwithin⟩ := h
  have hsub' : (os ++ [o]).Sublist (w.log ++ [o]) := hsub.append (List.Sublist.refl _)
  have hwithin' : ∀ x ∈ os ++ [o], x.Within gen ∧ gen % 2 = 0 :=
    List.forall_mem_append.mpr ⟨hwithin, List.forall_mem_singleton.mpr ⟨ho, heven⟩⟩
  obtain ⟨os', hos', hholds', hest⟩ := hD.add w.acc _ o.value hholds
  rw [show os.map (·.value) ++ [o.value] = (os ++ [o]).map (·.value) by simp] at hos'
  obtain ⟨kept, hkept, rfl⟩ := List.sublist_map_iff.mp hos'
  refine ⟨⟨kept, hkept.trans hsub', hholds', fun x hx => hwithin' x (hkept.subset hx)⟩,
    fun hvalid => ?_⟩
  obtain ⟨used, hused, hm⟩ := hest hvalid
  obtain ⟨from_, hfrom, rfl⟩ := List.sublist_map_iff.mp hused
  exact ⟨from_, (hfrom.trans hkept).trans hsub',
    fun x hx => (hwithin' x (hkept.subset (hfrom.subset hx))).1, hD.stamp _ _ g hm⟩

/-- Adding is where the invariant is used: either the observation is of the present epoch
and everything held is too, or the worker is still to be told to empty. -/
theorem Worker.Inv.added (hD : D.Lawful Holds Estimates) (h : w.Inv Holds Estimates D gen owed)
    {g : ℕ} {o : Obs ο} (hw : w.pc = .swapped g o) :
    (w.added D g o).Inv Holds Estimates D gen owed := by
  have hpc := h.pc
  rw [hw] at hpc
  have hfresh : D.stamps = true →
      (owed = true ∨ w.flag = true ∨ (w.added D g o).Current Holds gen) ∧
      Fresh Estimates gen (w.log ++ [o]) (Report.stamp (D.add o.value w.acc).2 g) := by
    intro hs
    obtain ⟨hwithin, heven, hle, hsame, hother⟩ := hpc hs
    unfold Fresh
    rw [Report.generation_stamp, Report.valid_stamp]
    by_cases hg : g = gen
    · subst hg
      obtain ⟨howed, hflag⟩ := hsame rfl
      have hcurrent : w.Current Holds g := by
        simpa [howed, hflag] using h.held hs
      obtain ⟨hcurrent', hsupported⟩ := hcurrent.added (g := g) hD hwithin heven
      exact ⟨.inr (.inr hcurrent'), fun hvalid _ => ⟨le_rfl, fun _ => hsupported hvalid⟩⟩
    · refine ⟨?_, fun _ _ => ⟨hle, fun heq => absurd heq hg⟩⟩
      rcases hother hg with howed | hflag
      · exact .inl howed
      · exact .inr (.inl hflag)
  have hpc' : Fresh Estimates gen (w.log ++ [o]) (Report.stamp (D.add o.value w.acc).2 g) := by
    by_cases hs : D.stamps = true
    · exact (hfresh hs).2
    · have hg : g = 0 := h.zero (by simpa using hs) g (by rw [hw]; rfl)
      intro _ hstamp
      rw [Report.generation_stamp] at hstamp
      exact absurd hg hstamp
  refine ⟨fun _ x hx => ?_, ?_, fun hs => (hfresh hs).1, ?_⟩
  · unfold Worker.added at hx
    dsimp only at hx
    split at hx
    · exact absurd hx (Option.not_mem_none x)
    · exact absurd hx (Option.not_mem_none x)
  · obtain ⟨os, hos⟩ := h.holds
    obtain ⟨os', -, hos', -⟩ := hD.add w.acc os o.value hos
    exact ⟨os', hos'⟩
  · unfold Worker.added
    dsimp only
    split
    · exact hpc'
    case isFalse hvalid => exact Bool.eq_false_iff.mpr hvalid

/-- **A worker's step keeps the invariant**, if its swaps come in a safe order, and what
it sends is fresh. -/
theorem Worker.Inv.step (hD : D.Lawful Holds Estimates) (h : w.Inv Holds Estimates D gen owed)
    {l : Label ο ε} {out : Option μ} (hs : Worker.Step D gen w l w' out)
    (hswap : w.SwapOk D gen owed l) :
    w'.Inv Holds Estimates D gen owed ∧ (w.log.Sublist w'.log) ∧
      ∀ m ∈ out, Fresh Estimates gen w'.log m := by
  have hreading : D.stamps = true → D.reading gen = gen := fun hst => by simp [Driver.reading, hst]
  have hzero : D.stamps = false → D.reading gen = 0 := fun hst => by simp [Driver.reading, hst]
  have hnone : ∀ m ∈ (none : Option μ), Fresh Estimates gen w'.log m :=
    fun m hm => absurd hm (Option.not_mem_none m)
  have hpc := h.pc
  cases hs with
  | sweep pc =>
    refine ⟨h.swept hD (fun _ g hg => absurd hg (Option.not_mem_none g)) trivial, ?_, hnone⟩
    exact List.Sublist.refl _
  | read pc =>
    refine ⟨h.move (fun hst g hg => ?_) fun hst => (hreading hst).le, List.Sublist.refl _, hnone⟩
    rw [← Option.some.inj hg]
    exact hzero hst
  | @start g pc =>
    rw [pc] at hpc
    refine ⟨h.move (fun hst x hx => h.zero hst x (by rw [pc]; exact hx))
      fun hst => ⟨hpc hst, le_rfl⟩, List.Sublist.refl _, hnone⟩
  | @finish g b v pc =>
    rw [pc] at hpc
    refine ⟨h.move (fun hst x hx => h.zero hst x (by rw [pc]; exact hx))
      fun hst => ⟨(hpc hst).1, (hpc hst).2, le_rfl⟩, List.Sublist.refl _, hnone⟩
  | on e =>
    refine ⟨h.forget (fun os hos => hD.on _ os e hos) ?_ ?_, List.Sublist.refl _, hnone⟩
    · cases hm : (D.on e w.acc).2 with
      | none => rfl
      | some m => rfl
    · cases hm : (D.on e w.acc).2 with
      | none => trivial
      | some m => exact hD.on_valid w.acc e m hm
  | @discard g o pc =>
    exact ⟨h.forget (fun os hos => hD.discard _ os o.value hos) rfl
      (hD.discard_valid w.acc o.value), List.Sublist.refl _, hnone⟩
  | @check g o pc same settled =>
    rw [pc] at hpc
    refine ⟨h.move (fun hst x hx => h.zero hst x (by rw [pc]; exact hx)) fun hst => ?_,
      List.Sublist.refl _, hnone⟩
    -- the epoch is what it was before the observation, so it was the same throughout
    obtain ⟨hbegan, hspan, hended⟩ := hpc hst
    rw [hreading hst] at same settled
    exact ⟨⟨by omega, by omega⟩, by omega, by omega⟩
  | @swap g o pc =>
    rw [pc] at hpc
    refine ⟨h.swept hD (fun hst x hx => h.zero hst x (by rw [pc]; exact hx)) fun hst => ?_,
      List.Sublist.refl _, hnone⟩
    obtain ⟨hwithin, heven, hle⟩ := hpc hst
    rcases hswap g (by rw [pc]; rfl) hst with ⟨hsame, howed⟩ | ⟨hother, howed⟩
    · exact ⟨hwithin, heven, hle, fun _ => ⟨howed, rfl⟩, fun hne => absurd hsame hne⟩
    · exact ⟨hwithin, heven, hle, fun heq => absurd heq hother, fun _ => .inl howed⟩
  | @add g o pc =>
    exact ⟨h.added hD pc, List.sublist_append_left _ _, hnone⟩
  | @stamp m pc =>
    rw [pc] at hpc
    refine ⟨h.move (fun _ x hx => absurd hx (Option.not_mem_none x)) fun hvalid => ?_,
      List.Sublist.refl _, hnone⟩
    rw [Report.valid_stamp] at hvalid
    exact absurd (hvalid.symm.trans hpc) (by decide)
  | @send m pc =>
    rw [pc] at hpc
    refine ⟨h.move (fun _ x hx => absurd hx (Option.not_mem_none x)) trivial,
      List.Sublist.refl _, fun x hx => ?_⟩
    rw [← Option.some.inj hx]
    exact hpc

end Epoch
