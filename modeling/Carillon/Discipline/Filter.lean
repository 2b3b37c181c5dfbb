/-
# The clock filter

`filter.go`: a shift register of eight samples from which the one with the least root
distance is the source's estimate.  The ring is a list with a position: as long as it is
not full, the next sample goes to its end.
-/
import Carillon.Discipline.Measurement
import Mathlib.Data.List.Sort

namespace Carillon.Discipline

open HasSqrt (sqrt)

/-- `FilterStages`. -/
def filterStages : ℕ := 8

/-- `stage`, a sample with its dispersion as aged so far. -/
structure Stage (K : Type) where
  offset : K
  delay : K
  disp : K
  t : K

/-- `Filter`. -/
structure Filter (K : Type) where
  stages : List (Stage K)
  next : ℕ
  /-- The time of the sample used last; older ones are stale. -/
  epoch : K
  /-- The time of the previous `Add`. -/
  update : K
  /-- The clock's precision, below which no jitter is reported. -/
  floor : K

/-- `Output`, the estimate after an `Add`. -/
structure Output (K : Type) where
  offset : K
  delay : K
  dispersion : K
  jitter : K
  at_ : K
  samples : ℕ

variable {K : Type} [Field K] [LinearOrder K]

/-- `primingDispersion`, what a stage that was never filled contributes. -/
def primingDispersion : K := 1

omit [LinearOrder K] in
/-- `NewFilter`. -/
def Filter.new (precision : K) : Filter K := ⟨[], 0, 0, 0, precision⟩

omit [LinearOrder K] in
/-- `Filter.Reset`. -/
def Filter.reset (f : Filter K) : Filter K := .new f.floor

/-- The register after the existing samples have aged to `now` and the new one was
shifted in. -/
def Filter.shift (f : Filter K) (offset delay disp now : K) : List (Stage K) :=
  let aged := if f.stages ≠ [] ∧ f.update < now then
      f.stages.map fun s : Stage K => { s with disp := s.disp + phi * (now - f.update) }
    else f.stages
  if aged.length < filterStages then aged ++ [⟨offset, delay, disp, now⟩]
  else aged.set f.next ⟨offset, delay, disp, now⟩

/-- A sample whose dispersion has reached `MaxDispersion` is kept there. -/
def Stage.capped (s : Stage K) : Stage K :=
  if maxDispersion ≤ s.disp then { s with disp := maxDispersion } else s

/-- The distance a sample is ranked by: half its delay and its dispersion, unless it is
older than the Allan intercept or carries no information. -/
def Stage.rank (s : Stage K) (now : K) : K :=
  if maxDispersion ≤ s.disp then maxDispersion
  else if allanIntercept < now - s.t then maxDistance + s.disp
  else s.delay / 2 + s.disp

/-- The order of the ranking: by distance, and the fresher sample among equals. -/
def Stage.Ahead (now : K) (a b : Stage K) : Prop :=
  if a.rank now = b.rank now then b.t ≤ a.t else a.rank now < b.rank now

instance (now : K) : DecidableRel (Stage.Ahead (K := K) now) := fun a b =>
  inferInstanceAs (Decidable (if a.rank now = b.rank now then _ else _))

/-- How many samples of a ranking are usable: none at `MaxDispersion`, and once there
are two, none at `MaxDistance`. -/
def usable (now : K) : List (Stage K) → ℕ → ℕ
  | [], m => m
  | s :: order, m =>
    if maxDispersion ≤ s.rank now ∨ 2 ≤ m ∧ maxDistance ≤ s.rank now then m
    else usable now order (m + 1)

variable [HasSqrt K]

/-- The estimate from a ranking whose first `m` samples are usable. -/
def estimate (floor : K) (best : Stage K) (order : List (Stage K)) (m : ℕ) : Output K :=
  let absent : K := if order.length < filterStages
    then primingDispersion * (1 - 1 / 2 ^ (filterStages - order.length)) else 0
  let squares := ((order.take m).drop 1).map fun s => (s.offset - best.offset) ^ 2
  let jitter := if 1 < m then sqrt (squares.sum / ((m : K) - 1)) else squares.sum
  { offset := best.offset
    delay := best.delay
    dispersion := order.foldr (fun s d => (d + s.disp) / 2) absent
    jitter := max jitter floor
    at_ := best.t
    samples := m }

/-- `Filter.Add`: shift a sample in and rank the register.  The flag says that the
estimate rests on a sample that was not used before. -/
def Filter.add (f : Filter K) (offset delay disp now : K) : Filter K × Output K × Bool :=
  let stages := (f.shift offset delay disp now).map Stage.capped
  let f := { f with stages := stages, update := now, next := (f.next + 1) % filterStages }
  let order := stages.insertionSort (Stage.Ahead now)
  match order with
  | [] => (f, ⟨0, 0, 0, 0, 0, 0⟩, false)
  | best :: _ =>
    if usable now order 0 = 0 then (f, ⟨0, 0, 0, 0, 0, 0⟩, false)
    else
      let out := estimate f.floor best order (usable now order 0)
      if best.t ≤ f.epoch then (f, out, false)
      else ({ f with epoch := best.t }, out, true)

/-- An `Add` keeps the floor. -/
theorem add_floor (f : Filter K) (offset delay disp now : K) :
    (f.add offset delay disp now).1.floor = f.floor := by
  unfold Filter.add
  dsimp only
  split
  · rfl
  · split_ifs <;> rfl

end Carillon.Discipline
