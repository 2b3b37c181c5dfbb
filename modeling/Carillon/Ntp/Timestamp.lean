/-
# Timestamps, short format and kiss codes

The 64-bit timestamp keeps the seconds since 1900 modulo `2 ^ 32` and a binary
fraction.  Seen as a number of `2 ^ -32` seconds it is the instant rounded down,
modulo `2 ^ 64` (`fromTime_eq`), and a difference of two timestamps is the true one as
long as that is within 68 years (`sub_ofInt`).  Within 68 years of a reference the
instant can be read back from it (`unix_fromUnix`).

`float64` results are rational numbers here.
-/
import Carillon.Ntp.Packet
import Carillon.Time

namespace Carillon.Ntp

/-- The Unix epoch, in seconds since 1 January of year 1. -/
def unixEpoch : ℤ := 62135596800

/-- `unixEpochOffset`: from 1900 to the Unix epoch. -/
def unixEpochOffset : ℤ := 2208988800

/-- `eraLength`. -/
def eraLength : ℤ := 2 ^ 32

/-- `FromUnix`.  The sum is taken modulo `2 ^ 32`, whether or not it wraps before. -/
def fromUnix (sec nsec : ℤ) : Time :=
  BitVec.ofInt 32 (sec + unixEpochOffset) ++ BitVec.ofInt 32 (nsec * 2 ^ 32 / 1000000000)

/-- `FromTime`. -/
def fromTime (t : ℤ) : Time :=
  fromUnix (t / second - unixEpoch) (t % second)

/-- `Time.Seconds`. -/
def Time.seconds (t : Time) : BitVec 32 := t.extractLsb' 32 32

/-- `Time.Fraction`. -/
def Time.fraction (t : Time) : BitVec 32 := t.extractLsb' 0 32

/-- `floorDiv`, from the quotient and the remainder that round towards zero. -/
def floorDiv (a b : ℤ) : ℤ :=
  let q := a.tdiv b
  if a.tmod b ≠ 0 ∧ decide (a < 0) ≠ decide (b < 0) then q - 1 else q

/-- `Time.Unix`: the seconds in the era nearest to `nearSec`, and the nanoseconds.  The
seconds are `int64` and wrap. -/
def Time.unix (t : Time) (nearSec : ℤ) : ℤ × ℤ :=
  let sec := (t.seconds.toNat : ℤ) - unixEpochOffset
  let diff := (nearSec - sec).bmod (2 ^ 64)
  let eras := floorDiv ((diff + eraLength / 2).bmod (2 ^ 64)) eraLength
  ((sec + (eras * eraLength).bmod (2 ^ 64)).bmod (2 ^ 64),
    t.fraction.toNat * 1000000000 / 2 ^ 32)

/-- `Time.Sub`: the difference modulo `2 ^ 64`, read as a signed number, in seconds. -/
def Time.sub (t u : Time) : ℚ :=
  (t - u).toInt / 2 ^ 32

/-- `ShortFromSeconds`, saturating at both ends. -/
def shortFromSeconds (s : ℚ) : Short :=
  if s ≤ 0 then 0 else if 65536 ≤ s then BitVec.allOnes 32 else BitVec.ofInt 32 ⌊s * 65536⌋

/-- `Short.Seconds`. -/
def Short.seconds (s : Short) : ℚ :=
  s.toNat / 65536

/-- `Log2Seconds`. -/
def log2Seconds (exp : Int8) : ℚ :=
  2 ^ exp.toInt

/-- The characters of a text id, without the spaces on the right: `RefID.Text`. -/
def RefID.text (r : RefID) : List UInt8 :=
  (r.bytes.toList.reverse.dropWhile (· == 0x20)).reverse

/-- Rate exceeded; slow down. -/
def kissRATE : RefID := refIDFromString "RATE"

/-- Access denied; stop sending. -/
def kissDENY : RefID := refIDFromString "DENY"

/-- Access restricted; stop sending. -/
def kissRSTR : RefID := refIDFromString "RSTR"

/-- `KissCode`: the text of a kiss packet, or nothing. -/
def Packet.kissCode (p : Packet) : List UInt8 :=
  if p.isKiss = false ∨ p.referenceID.isText = false then [] else p.referenceID.text

/-! ## Instants as numbers of `2 ^ -32` seconds -/

/-- The instant since 1900 in units of `2 ^ -32` seconds, rounded down. -/
def units (t : ℤ) : ℤ :=
  (t - (unixEpoch - unixEpochOffset) * second) * 2 ^ 32 / second

theorem units_eq (t : ℤ) :
    units t = (t / second - unixEpoch + unixEpochOffset) * 2 ^ 32 +
      t % second * 2 ^ 32 / second := by
  unfold units second unixEpoch unixEpochOffset
  omega

/-- **A timestamp is the instant modulo the era.** -/
theorem fromTime_eq (t : ℤ) : fromTime t = BitVec.ofInt 64 (units t) := by
  have hnsec : 0 ≤ t % second := Int.emod_nonneg t (by decide)
  have hlt : t % second < second := Int.emod_lt_of_pos t (by decide)
  rw [units_eq]
  unfold fromTime fromUnix
  rw [show (1000000000 : ℤ) = second from rfl]
  generalize t / second - unixEpoch + unixEpochOffset = s
  have hf : 0 ≤ t % second * 2 ^ 32 / second ∧ t % second * 2 ^ 32 / second < 2 ^ 32 := by
    unfold second at *
    omega
  generalize t % second * 2 ^ 32 / second = f at hf
  apply BitVec.eq_of_toNat_eq
  rw [BitVec.toNat_append, BitVec.toNat_ofInt, BitVec.toNat_ofInt, BitVec.toNat_ofInt]
  rw [← Nat.shiftLeft_add_eq_or_of_lt (by omega), Nat.shiftLeft_eq]
  omega

/-- **A difference that fits is the true one.** -/
theorem sub_ofInt (a b : ℤ) (hlo : -2 ^ 63 ≤ a - b) (hhi : a - b < 2 ^ 63) :
    Time.sub (BitVec.ofInt 64 a) (BitVec.ofInt 64 b) = (a - b : ℤ) / 2 ^ 32 := by
  have hsub : (BitVec.ofInt 64 a - BitVec.ofInt 64 b).toInt = a - b := by
    rw [BitVec.toInt_sub, BitVec.toInt_ofInt, BitVec.toInt_ofInt, Int.sub_bmod_bmod,
      Int.bmod_sub_bmod, Int.bmod_def]
    omega
  unfold Time.sub
  rw [hsub]

/-- A difference of instants and that of their timestamps are less than a unit apart. -/
theorem units_sub (t u : ℤ) :
    (t - u) * 2 ^ 32 - second < (units t - units u) * second ∧
      (units t - units u) * second < (t - u) * 2 ^ 32 + second := by
  unfold units second
  omega

/-- Within 68 years a difference of timestamps is that of the instants, up to the
rounding. -/
theorem sub_fromTime {t u : ℤ} (hlo : -2 ^ 31 * second < t - u) (hhi : t - u < 2 ^ 31 * second) :
    (fromTime t).sub (fromTime u) = (units t - units u : ℤ) / 2 ^ 32 := by
  obtain ⟨hunder, hover⟩ := units_sub t u
  rw [fromTime_eq, fromTime_eq]
  unfold second at *
  exact sub_ofInt _ _ (by omega) (by omega)

/-- The server's clock may be off by whole eras: its timestamps are the same. -/
theorem fromTime_era (t k : ℤ) : fromTime (t + k * (eraLength * second)) = fromTime t := by
  have hunits : units (t + k * (eraLength * second)) = units t + k * 2 ^ 64 := by
    unfold units eraLength second
    omega
  rw [fromTime_eq, fromTime_eq, hunits]
  apply BitVec.eq_of_toNat_eq
  rw [BitVec.toNat_ofInt, BitVec.toNat_ofInt]
  push_cast
  rw [Int.add_mul_emod_self_right]

/-! ## The way back -/

theorem floorDiv_eq {a b : ℤ} (hb : 0 < b) : floorDiv a b = a / b := by
  have hsign : decide (b < 0) = false := decide_eq_false hb.not_gt
  have hquot := Int.tdiv_eq_ediv (a := a) (b := b)
  rw [Int.sign_eq_one_of_pos hb] at hquot
  unfold floorDiv
  dsimp only
  by_cases hdvd : b ∣ a
  · rw [if_neg (fun h => h.1 (Int.dvd_iff_tmod_eq_zero.mp hdvd)), hquot, if_pos (.inr hdvd),
      add_zero]
  have hrem : a.tmod b ≠ 0 := fun h => hdvd (Int.dvd_iff_tmod_eq_zero.mpr h)
  by_cases ha : a < 0
  · have hboth : a.tmod b ≠ 0 ∧ decide (a < 0) ≠ decide (b < 0) := by
      rw [hsign, decide_eq_true ha]
      exact ⟨hrem, Bool.noConfusion⟩
    have hneither : ¬(0 ≤ a ∨ b ∣ a) := not_or.mpr ⟨not_le.mpr ha, hdvd⟩
    rw [if_pos hboth, hquot, if_neg hneither, add_sub_cancel_right]
  · have hsame : ¬(a.tmod b ≠ 0 ∧ decide (a < 0) ≠ decide (b < 0)) := by
      rw [hsign, decide_eq_false ha]
      exact fun h => h.2 rfl
    rw [if_neg hsame, hquot, if_pos (.inl (not_lt.mp ha)), add_zero]

/-- The wrapping of the difference and that of the product cancel: both are by whole eras. -/
theorem era_wrap (s near : ℤ) :
    (s + (((near - s).bmod (2 ^ 64) + 2 ^ 31).bmod (2 ^ 64) / 2 ^ 32 * 2 ^ 32).bmod (2 ^ 64)).bmod
      (2 ^ 64) = (s + (near - s + 2 ^ 31) / 2 ^ 32 * 2 ^ 32).bmod (2 ^ 64) := by
  rw [Int.bmod_add_bmod, Int.add_bmod_bmod]
  have hwrap := Int.bmod_eq_self_sub_mul_bdiv (near - s + 2 ^ 31) (2 ^ 64)
  generalize Int.bdiv (near - s + 2 ^ 31) (2 ^ 64) = k at hwrap
  have heras : (near - s + 2 ^ 31).bmod (2 ^ 64) / 2 ^ 32 * 2 ^ 32 =
      (near - s + 2 ^ 31) / 2 ^ 32 * 2 ^ 32 - 2 ^ 64 * k := by
    rw [hwrap]
    push_cast
    omega
  rw [heras, ← add_sub_assoc]
  exact Int.sub_mul_bmod_self_left _ _ _

theorem seconds_fromUnix (sec nsec : ℤ) :
    ((fromUnix sec nsec).seconds.toNat : ℤ) = (sec + unixEpochOffset) % 2 ^ 32 := by
  have hhigh : (fromUnix sec nsec).seconds = BitVec.ofInt 32 (sec + unixEpochOffset) := by
    unfold fromUnix Time.seconds
    exact BitVec.extractLsb'_append_eq_left
  rw [hhigh, BitVec.toNat_ofInt]
  omega

theorem fraction_fromUnix (sec : ℤ) {nsec : ℤ} (h : 0 ≤ nsec ∧ nsec < 1000000000) :
    ((fromUnix sec nsec).fraction.toNat : ℤ) = nsec * 2 ^ 32 / 1000000000 := by
  have hlow : (fromUnix sec nsec).fraction = BitVec.ofInt 32 (nsec * 2 ^ 32 / 1000000000) := by
    unfold fromUnix Time.fraction
    exact BitVec.extractLsb'_append_eq_right
  rw [hlow, BitVec.toNat_ofInt]
  omega

/-- **The way back.**  The seconds are exact in the era around the reference, and the
nanosecond is rounded down at most once. -/
theorem unix_fromUnix {sec near nsec : ℤ} (hsec : -2 ^ 63 ≤ sec ∧ sec < 2 ^ 63)
    (hnsec : 0 ≤ nsec ∧ nsec < 1000000000)
    (hnear : near - 2 ^ 31 < sec ∧ sec ≤ near + 2 ^ 31) :
    ((fromUnix sec nsec).unix near).1 = sec ∧
      (((fromUnix sec nsec).unix near).2 = nsec ∨
        ((fromUnix sec nsec).unix near).2 = nsec - 1) := by
  constructor
  · have hunix : ((fromUnix sec nsec).unix near).1 =
        ((sec + unixEpochOffset) % 2 ^ 32 - unixEpochOffset +
          (near - ((sec + unixEpochOffset) % 2 ^ 32 - unixEpochOffset) + 2 ^ 31) / 2 ^ 32 *
            2 ^ 32).bmod (2 ^ 64) := by
      rw [← era_wrap, ← seconds_fromUnix sec nsec, ← floorDiv_eq (by decide)]
      rfl
    have hera : (sec + unixEpochOffset) % 2 ^ 32 - unixEpochOffset +
        (near - ((sec + unixEpochOffset) % 2 ^ 32 - unixEpochOffset) + 2 ^ 31) / 2 ^ 32 * 2 ^ 32 =
        sec := by
      unfold unixEpochOffset
      omega
    rw [hunix, hera]
    exact Int.bmod_eq_of_le (by omega) (by omega)
  · have hunix : ((fromUnix sec nsec).unix near).2 =
        nsec * 2 ^ 32 / 1000000000 * 1000000000 / 2 ^ 32 := by
      rw [← fraction_fromUnix sec hnsec]
      rfl
    rw [hunix]
    omega

end Carillon.Ntp
