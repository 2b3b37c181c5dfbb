/-
# Measurements: what a source hands to the discipline

The discipline computes with `float64` seconds.  The model computes in an
ordered field `K` with a square root: in `ℝ`, or in `ℚ` with the rounded-down root,
where it runs.  Unless a theorem names one of them it holds for each such `K`.  Names of sources are
the non-empty strings the configuration admits: the discipline writes the empty one for "no
source".
-/
import Mathlib.Analysis.Real.Sqrt
import Carillon.Ntp
import Carillon.Lib.Numerals

namespace Carillon.Discipline

open Ntp (RefID)

/-- `math.Sqrt` on the numbers the discipline computes with. -/
class HasSqrt (K : Type) where
  sqrt : K → K

/-- The integer square root, bit by bit from the highest. -/
def isqrt (n : ℕ) : ℕ :=
  (List.range (n.log2 / 2 + 1)).reverse.foldl
    (fun r i => if (r + 2 ^ i) * (r + 2 ^ i) ≤ n then r + 2 ^ i else r) 0

/-- The square root of a fraction, rounded down to a multiple of one over its
denominator. -/
instance : HasSqrt ℚ where
  sqrt q := (isqrt (q.num.toNat * q.den) : ℚ) / q.den

noncomputable instance : HasSqrt ℝ where
  sqrt := Real.sqrt

example : [0, 1, 2, 3, 4, 8, 9, 15, 16, 99, 100].map isqrt =
    [0, 1, 1, 1, 2, 2, 3, 3, 4, 9, 10] := by
  decide +kernel

/-- A configured source name; `config.Validate` refuses an empty one. -/
def Name : Type := { s : String // s ≠ "" }

instance : DecidableEq Name := inferInstanceAs (DecidableEq { s : String // s ≠ "" })

/-- The names of the sources in the concrete runs. -/
def Name.a : Name := ⟨"a", by decide⟩
@[inherit_doc Name.a]
def Name.b : Name := ⟨"b", by decide⟩
@[inherit_doc Name.a]
def Name.c : Name := ⟨"c", by decide⟩
@[inherit_doc Name.a]
def Name.gps : Name := ⟨"gps", by decide⟩
@[inherit_doc Name.a]
def Name.pps : Name := ⟨"pps", by decide⟩
@[inherit_doc Name.a]
def Name.server : Name := ⟨"server", by decide⟩

/-- `discipline.Measurement`, a source's report after its own clock filter. -/
structure Measurement (K : Type) where
  source : Name
  now : K
  reach : UInt8
  poll : ℤ
  /-- The clock epoch the source read before it observed; 0 is unstamped. -/
  generation : ℕ
  /-- The report carries a new estimate. -/
  valid : Bool
  /-- The report is a successful acquisition that has no new estimate. -/
  acquired : Bool
  leapSample : Bool
  leapValue : Ntp.Leap
  leapObserved : K
  /-- The source takes its previous estimate back. -/
  invalidate : Bool
  at_ : K
  offset : K
  delay : K
  dispersion : K
  jitter : K
  leap : Ntp.Leap
  stratum : ℕ
  refID : RefID
  rootDelay : K
  rootDisp : K
  precision : ℤ
  refTime : ℤ
  sourceRefID : RefID

/-- `Measurement.IsAcquisition`. -/
def Measurement.isAcquisition {K : Type} (m : Measurement K) : Bool :=
  m.valid || m.acquired

/-- `discipline.Options`, fixed when a source is registered. -/
structure Options where
  prefer : Bool
  noSelect : Bool
  /-- The source can say which second it is. -/
  numbering : Bool
  pps : Bool
  leapIncapable : Bool
  deriving DecidableEq, Repr, Inhabited

section Constants

variable {K : Type} [Field K]

/-- The frequency tolerance of an undisciplined clock, `Phi`. -/
def phi : K := 15 / 1000000

/-- The dispersion that carries no information, `MaxDispersion`. -/
def maxDispersion : K := 16

/-- The root distance beyond which a source is not used, `MaxDistance`. -/
def maxDistance : K := 3 / 2

/-- The largest frequency correction in ppm, `MaxFrequency`. -/
def maxFrequency : K := 500

/-- `AllanIntercept`, in seconds. -/
def allanIntercept : K := 2048

end Constants

/-- The poll exponents a source may use, `MinPoll` and `MaxPoll`. -/
def minPoll : ℤ := 2
@[inherit_doc minPoll]
def maxPoll : ℤ := 17

end Carillon.Discipline
