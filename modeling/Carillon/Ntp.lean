/-
# Leap indicators and reference identifiers of an NTP packet
-/
import Mathlib.Tactic

namespace Carillon.Ntp

/-- `ntp.Leap`, the two-bit leap indicator.  `none` announces nothing, `insert` a
minute of 61 seconds and `delete` one of 59 seconds at the end of the day, and
`unsync` an unsynchronised clock. -/
inductive Leap where
  | none
  | insert
  | delete
  | unsync
  deriving DecidableEq, Repr, Inhabited

/-- `ntp.RefID`, the four bytes of the reference identifier: a kiss code, a clock
name or an address. -/
structure RefID where
  bytes : Vector UInt8 4
  deriving DecidableEq, Repr

/-- `RefIDFromString`: the characters of an ASCII text, padded with spaces. -/
def refIDFromString (s : String) : RefID :=
  ⟨Vector.ofFn fun i => (s.toList[i.val]?).elim 0x20 Char.toUInt8⟩

/-- `RefID.IsText`: all four bytes are printable, so it is not an address. -/
def RefID.isText (r : RefID) : Bool :=
  r.bytes.all fun b => 0x20 ≤ b && b ≤ 0x7e

instance : Inhabited RefID := ⟨⟨Vector.replicate 4 0⟩⟩

/-- Not yet synchronised. -/
def kissINIT : RefID := refIDFromString "INIT"

/-- Just stepped, resynchronising. -/
def kissSTEP : RefID := refIDFromString "STEP"

/-- Holdover expired. -/
def kissHOLD : RefID := refIDFromString "HOLD"

/-- Offset beyond the panic threshold. -/
def kissPANC : RefID := refIDFromString "PANC"

end Carillon.Ntp
