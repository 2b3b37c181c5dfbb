/-
# The kernel's words

The system clock takes its corrections as integers: the frequency in units of 2^-16 ppm,
the error bounds in microseconds, and the discipline's judgement as bits of a status word.
This module has the conversions that the Linux and the FreeBSD backends share
(`clock/sysclock_common.go`) and what each write leaves of the kernel's words.

* A frequency comes back within half a unit of what was asked.
* A status write decides the bits that the daemon owns and leaves every other bit alone.
-/
import Mathlib.Tactic
import Carillon.Lib.Numerals
import Carillon.Ntp

namespace Carillon.Clock

/-! ## Frequency -/

section

variable {K : Type} [Field K] [LinearOrder K]

/-- `maxFrequencyPPM`. -/
def maxFrequencyPPM : K := 500

/-- `freqScale`, the kernel's units to one ppm. -/
def freqScale : K := ((65536 : ℕ) : K)

/-- `clampFrequency`. -/
def clampFrequency (ppm : K) : K :=
  if maxFrequencyPPM < ppm then maxFrequencyPPM
  else if ppm < -maxFrequencyPPM then -maxFrequencyPPM
  else ppm

/-- `sign`. -/
def sign (x : K) : K := if x < 0 then -1 else 1

/-- The conversion of a float to an integer, which cuts off toward zero. -/
def truncate [FloorRing K] (x : K) : ℤ := if x < 0 then ⌈x⌉ else ⌊x⌋

/-- `freqWord`. -/
def freqWord [FloorRing K] (ppm : K) : ℤ :=
  truncate (clampFrequency ppm * freqScale + 1 / 2 * sign ppm)

/-- `freqPPM`. -/
def freqPPM (word : ℤ) : K := (word : K) / freqScale

variable [IsStrictOrderedRing K]

theorem freqScale_pos : (0 : K) < freqScale := by
  norm_num [freqScale]

theorem clampFrequency_neg_iff (ppm : K) : clampFrequency ppm < 0 ↔ ppm < 0 := by
  have h500 : (0 : K) < maxFrequencyPPM := by norm_num [maxFrequencyPPM]
  unfold clampFrequency
  split_ifs with h₁ h₂
  · constructor <;> intro h <;> linarith
  · constructor <;> intro h <;> linarith
  · exact Iff.rfl

variable [FloorRing K]

/-- Half a unit added away from zero makes the cut a rounding. -/
theorem truncate_round (x : K) : |(truncate (x + 1 / 2 * sign x) : K) - x| ≤ 1 / 2 := by
  unfold truncate sign
  by_cases hx : x < 0
  · rw [if_pos hx, if_pos (by linarith)]
    have h₁ := Int.le_ceil (x + 1 / 2 * -1)
    have h₂ := Int.ceil_lt_add_one (x + 1 / 2 * -1)
    rw [abs_le]
    constructor <;> linarith
  · rw [if_neg hx, if_neg (by linarith)]
    have h₁ := Int.floor_le (x + 1 / 2 * 1)
    have h₂ := Int.lt_floor_add_one (x + 1 / 2 * 1)
    rw [abs_le]
    constructor <;> linarith

/-- The word is off by half a unit at most. -/
theorem freqWord_round (ppm : K) : |(freqWord ppm : K) - clampFrequency ppm * freqScale| ≤
    1 / 2 := by
  have hneg : clampFrequency ppm * freqScale < 0 ↔ ppm < 0 := by
    rw [← clampFrequency_neg_iff ppm]
    exact ⟨fun h => neg_of_mul_neg_left h freqScale_pos.le,
      fun h => mul_neg_of_neg_of_pos h freqScale_pos⟩
  have hsign : sign ppm = sign (clampFrequency ppm * freqScale) := by
    unfold sign
    exact if_congr hneg.symm rfl rfl
  rw [freqWord, hsign]
  exact truncate_round _

/-- The kernel runs within half a unit of the frequency that was asked for, if it is in range. -/
theorem freqPPM_freqWord (ppm : K) :
    |freqPPM (freqWord ppm) - clampFrequency ppm| ≤ 1 / (2 * freqScale) := by
  have hpos : (0 : K) < freqScale := freqScale_pos
  have h : freqPPM (freqWord ppm) - clampFrequency ppm =
      ((freqWord ppm : K) - clampFrequency ppm * freqScale) / freqScale := by
    rw [freqPPM]
    field_simp
  rw [h, abs_div, abs_of_pos hpos, div_le_div_iff₀ hpos (by positivity)]
  have := freqWord_round ppm
  nlinarith

end

/-! ## Error bounds and status -/

/-- `maxErrorMicros`. -/
def maxErrorMicros : ℤ := 16000000

/-- `errorMicros`, from nanoseconds. -/
def errorMicros (d : ℤ) : ℤ :=
  if d < 0 then 0
  else if maxErrorMicros < d / 1000 then maxErrorMicros
  else d / 1000

/-- `clock.Status`, as the backends take it: the bounds are durations. -/
structure Status where
  synced : Bool
  leap : Ntp.Leap
  maxError : ℤ
  estError : ℤ
  deriving DecidableEq, Repr

def staPLL : BitVec 32 := 0x0001
def staPPSFREQ : BitVec 32 := 0x0002
def staPPSTIME : BitVec 32 := 0x0004
def staFLL : BitVec 32 := 0x0008
def staINS : BitVec 32 := 0x0010
def staDEL : BitVec 32 := 0x0020
def staUNSYNC : BitVec 32 := 0x0040

/-- `disciplineBits`: the bits that the daemon owns. -/
def disciplineBits : BitVec 32 :=
  staPLL ||| staPPSFREQ ||| staPPSTIME ||| staFLL ||| staINS ||| staDEL ||| staUNSYNC

/-- `statusWord`. -/
def statusWord (current : BitVec 32) (s : Status) : BitVec 32 :=
  let w := current &&& ~~~disciplineBits
  let w := if !s.synced || decide (s.leap = .unsync) then w ||| staUNSYNC else w
  match s.leap with
  | .insert => w ||| staINS
  | .delete => w ||| staDEL
  | _ => w

/-- The bit of a leap. -/
def leapBits : Ntp.Leap → BitVec 32
  | .insert => staINS
  | .delete => staDEL
  | _ => 0

/-- The bits that a status sets. -/
def Status.bits (s : Status) : BitVec 32 :=
  (if !s.synced || decide (s.leap = .unsync) then staUNSYNC else 0) ||| leapBits s.leap

theorem statusWord_eq (current : BitVec 32) (s : Status) :
    statusWord current s = current &&& ~~~disciplineBits ||| s.bits := by
  unfold statusWord Status.bits leapBits
  cases s.leap <;> cases s.synced <;> simp [BitVec.or_assoc]

/-- The bits are among those that the daemon owns. -/
theorem Status.bits_and (s : Status) : s.bits &&& disciplineBits = s.bits := by
  unfold Status.bits
  cases s.leap <;> cases s.synced <;> decide

theorem Status.bits_synced {s : Status} (hs : s.synced = true) (hl : s.leap ≠ .unsync) :
    s.bits = leapBits s.leap := by
  rw [Status.bits, hs, decide_eq_false hl, Bool.not_true, Bool.or_self, if_neg Bool.false_ne_true]
  exact BitVec.zero_or

theorem Status.bits_unsynced {s : Status} (hs : s.synced = false) (hl : s.leap = .unsync) :
    s.bits = staUNSYNC := by
  rw [Status.bits, hs, hl]
  decide

/-- Of the bits that the daemon owns, those of the status are set and no other. -/
theorem statusWord_and (current : BitVec 32) (s : Status) :
    statusWord current s &&& disciplineBits = s.bits := by
  have hzero : ~~~disciplineBits &&& disciplineBits = 0#32 := by decide
  rw [statusWord_eq, BitVec.and_or_distrib_right, BitVec.and_assoc, hzero, BitVec.and_zero,
    BitVec.zero_or, s.bits_and]

/-- The other bits are those of the kernel. -/
theorem statusWord_and_not (current : BitVec 32) (s : Status) :
    statusWord current s &&& ~~~disciplineBits = current &&& ~~~disciplineBits := by
  have hzero : disciplineBits &&& ~~~disciplineBits = 0#32 := by decide
  have hbits : s.bits &&& ~~~disciplineBits = 0#32 := by
    rw [← s.bits_and, BitVec.and_assoc, hzero, BitVec.and_zero]
  rw [statusWord_eq, BitVec.and_or_distrib_right, BitVec.and_assoc, BitVec.and_self, hbits,
    BitVec.or_zero]

/-- A bit that the daemon owns is read off the status. -/
theorem statusWord_and_of_owned (current : BitVec 32) (s : Status) {b : BitVec 32}
    (hb : disciplineBits &&& b = b) : statusWord current s &&& b = s.bits &&& b := by
  rw [← statusWord_and current s, BitVec.and_assoc, hb]

/-! ## The kernel -/

/-- The words of `adjtimex` and `ntp_adjtime`, as the daemon leaves them.  What the kernel makes of
them by itself, as it does with time and at a step, is not part of it. -/
structure Timex where
  freq : ℤ
  status : BitVec 32
  maxerror : ℤ
  esterror : ℤ
  deriving DecidableEq, Repr

/-- The backends' `SetFrequency`. -/
def Timex.setFrequency {K : Type} [Field K] [LinearOrder K] [FloorRing K] (t : Timex) (ppm : K) :
    Timex :=
  { t with freq := freqWord ppm }

/-- The backends' `SetStatus`. -/
def Timex.setStatus (t : Timex) (s : Status) : Timex :=
  { t with
    status := statusWord t.status s
    maxerror := errorMicros s.maxError
    esterror := errorMicros s.estError }

end Carillon.Clock
