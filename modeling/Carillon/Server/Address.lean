/-
# Addresses, prefixes and martians

The part of `net/netip` that the server uses.  An IPv6 address may have a zone; a
prefix has none, and an address with a zone matches no prefix.  A prefix that is
masked and contains an address is determined by its length and the address
(`Prefix.eq_of_contains`), which is what makes a longest match unique.
-/
import Mathlib.Tactic

namespace Carillon.Server

/-- `netip.Addr`: the zero value, an IPv4 address, or an IPv6 address with its zone. -/
inductive Addr where
  | invalid
  | v4 (bits : BitVec 32)
  | v6 (bits : BitVec 128) (zone : String)
  deriving DecidableEq

/-- `Addr.Unmap`: an IPv4-mapped address as the IPv4 address. -/
def Addr.unmap : Addr → Addr
  | .v6 bits zone => if bits >>> 32 = 0xffff then .v4 (bits.setWidth 32) else .v6 bits zone
  | a => a

/-- `Addr.Is4`. -/
def Addr.is4 : Addr → Bool
  | .v4 _ => true
  | .invalid | .v6 .. => false

/-- The address has no zone. -/
def Addr.zoneless : Addr → Bool
  | .v6 _ zone => zone == ""
  | .invalid | .v4 _ => true

/-- The leading bits of an address, the others zero. -/
def maskBits {w : ℕ} (bits : ℕ) (a : BitVec w) : BitVec w :=
  (a >>> (w - bits)) <<< (w - bits)

/-- `netip.Prefix`. -/
inductive Prefix where
  | invalid
  | v4 (addr : BitVec 32) (bits : Fin 33)
  | v6 (addr : BitVec 128) (bits : Fin 129)
  deriving DecidableEq

/-- `Prefix.Bits`. -/
def Prefix.bits : Prefix → ℤ
  | .invalid => -1
  | .v4 _ bits => bits
  | .v6 _ bits => bits

/-- `Prefix.Masked`. -/
def Prefix.masked : Prefix → Prefix
  | .invalid => .invalid
  | .v4 addr bits => .v4 (maskBits bits addr) bits
  | .v6 addr bits => .v6 (maskBits bits addr) bits

/-- `Prefix.Contains`: the leading bits agree.  An address with a zone is in no
prefix. -/
def Prefix.contains : Prefix → Addr → Bool
  | .v4 addr bits, .v4 a => decide ((a ^^^ addr) >>> (32 - bits.val) = 0)
  | .v6 addr bits, .v6 a zone =>
    zone == "" && decide ((a ^^^ addr) &&& (BitVec.allOnes 128 <<< (128 - bits.val)) = 0)
  | _, _ => false

/-- `netip.AddrPort`. -/
structure AddrPort where
  addr : Addr
  port : UInt16
  deriving DecidableEq

/-- `Addr.IsUnspecified`. -/
def Addr.isUnspecified (a : Addr) : Bool :=
  decide (a = .v4 0) || decide (a = .v6 0 "")

/-- `Addr.IsMulticast`; the link-local and the interface-local groups are among
them. -/
def Addr.isMulticast : Addr → Bool
  | .v4 bits => decide (bits >>> 28 = 0xe)
  | .v6 bits _ => decide (bits >>> 120 = 0xff)
  | .invalid => false

/-- `martianSource`. -/
def martianSource (from_ : AddrPort) : Bool :=
  let addr := from_.addr.unmap
  decide (addr = .invalid) || decide (from_.port = 0) || addr.isUnspecified || addr.isMulticast ||
    decide (addr = .v4 0xffffffff) ||
    match addr with
    | .v4 bits => decide (bits >>> 24 = 0)
    | _ => false

/-! ## Masks -/

theorem maskBits_maskBits {w : ℕ} (bits : ℕ) (a : BitVec w) :
    maskBits bits (maskBits bits a) = maskBits bits a := by
  unfold maskBits
  ext i hi
  simp only [BitVec.getElem_shiftLeft]
  by_cases h : i < w - bits
  · simp [h]
  · simp [h, show w - bits + (i - (w - bits)) = i by omega, hi]

theorem Prefix.masked_masked (p : Prefix) : p.masked.masked = p.masked := by
  cases p with
  | invalid => rfl
  | v4 addr bits => exact congrArg (Prefix.v4 · bits) (maskBits_maskBits _ _)
  | v6 addr bits => exact congrArg (Prefix.v6 · bits) (maskBits_maskBits _ _)

/-- Agreement on the leading bits, as the comparison of an IPv4 prefix. -/
theorem maskBits_eq_of_shift {w : ℕ} {bits : ℕ} {a b : BitVec w}
    (h : (a ^^^ b) >>> (w - bits) = 0) : maskBits bits a = maskBits bits b := by
  have hshift : a >>> (w - bits) = b >>> (w - bits) := by
    rw [BitVec.ushiftRight_xor_distrib] at h
    exact BitVec.xor_eq_zero_iff.mp h
  unfold maskBits
  rw [hshift]

/-- The same as the comparison of an IPv6 prefix. -/
theorem maskBits_eq_of_and {w : ℕ} {bits : ℕ} {a b : BitVec w}
    (h : (a ^^^ b) &&& (BitVec.allOnes w <<< (w - bits)) = 0) :
    maskBits bits a = maskBits bits b := by
  have hbit : ∀ i, w - bits ≤ i → i < w → a.getLsbD i = b.getLsbD i := by
    intro i hlo hhi
    have hi := congrArg (fun x => x.getLsbD i) h
    simp only [BitVec.getLsbD_and, BitVec.getLsbD_xor, BitVec.getLsbD_shiftLeft,
      BitVec.getLsbD_allOnes, hhi, decide_true,
      show i - (w - bits) < w by omega, show ¬(i < w - bits) by omega, decide_false, Bool.not_false,
      Bool.and_true] at hi
    simpa using hi
  unfold maskBits
  ext i hi
  simp only [BitVec.getElem_shiftLeft, BitVec.getElem_ushiftRight]
  by_cases hlo : i < w - bits
  · simp [hlo]
  · rw [show w - bits + (i - (w - bits)) = i by omega, hbit i (by omega) hi]

/-- **A masked prefix around an address is determined by its length.** -/
theorem Prefix.eq_of_contains {p q : Prefix} {a : Addr} (hp : p.masked = p) (hq : q.masked = q)
    (hpa : p.contains a = true) (hqa : q.contains a = true) (hbits : p.bits = q.bits) : p = q := by
  cases p with
  | invalid => cases hpa
  | v4 addr bits =>
    cases a with
    | invalid => cases hpa
    | v6 x zone => cases hpa
    | v4 x =>
      cases q with
      | invalid => cases hqa
      | v6 addr' bits' => cases hqa
      | v4 addr' bits' =>
        have hb : bits = bits' := Fin.ext (by simpa [Prefix.bits] using hbits)
        subst hb
        have h1 := maskBits_eq_of_shift (of_decide_eq_true hpa)
        have h2 := maskBits_eq_of_shift (of_decide_eq_true hqa)
        have h3 : maskBits bits addr = addr := by injection hp
        have h4 : maskBits bits addr' = addr' := by injection hq
        rw [← h3, ← h4, ← h1, ← h2]
  | v6 addr bits =>
    cases a with
    | invalid => cases hpa
    | v4 x => cases hpa
    | v6 x zone =>
      cases q with
      | invalid => cases hqa
      | v4 addr' bits' => cases hqa
      | v6 addr' bits' =>
        have hb : bits = bits' := Fin.ext (by simpa [Prefix.bits] using hbits)
        subst hb
        simp only [Prefix.contains, Bool.and_eq_true, decide_eq_true_eq] at hpa hqa
        have h1 := maskBits_eq_of_and hpa.2
        have h2 := maskBits_eq_of_and hqa.2
        have h3 : maskBits bits addr = addr := by injection hp
        have h4 : maskBits bits addr' = addr' := by injection hq
        rw [← h3, ← h4, ← h1, ← h2]

/-- Only an address without a zone is in a prefix. -/
theorem Prefix.zoneless_of_contains {p : Prefix} {a : Addr} (h : p.contains a = true) :
    a.zoneless = true := by
  cases a with
  | invalid => rfl
  | v4 x => rfl
  | v6 x zone =>
    cases p with
    | invalid => cases h
    | v4 addr bits => cases h
    | v6 addr bits =>
      simp only [Prefix.contains, Bool.and_eq_true] at h
      exact h.1

end Carillon.Server
