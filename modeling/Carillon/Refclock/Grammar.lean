/-
# The grammar of NMEA time

What `parseNMEA` accepts as the time of an `RMC` or `ZDA` line, against a grammar that is
stated without the parser: a line frames comma-separated fields with a checksum, a time
field is `hhmmss` with an optional fraction, the date fields are decimal digits, and the
instant is the one whose calendar and clock fields are the written ones.

The parsers differ in what they let through.  The fields of the time go through
`parseDigits`, which takes digits only; those of the date go through `strconv.Atoi`, which
takes a sign as well.  Each parser has one lemma that says what it accepts.
-/
import Mathlib.Data.List.TakeWhile
import Carillon.Lib.Checks
import Carillon.Refclock.Sentence

namespace Carillon.Refclock

open Leap (atoi digits)
open Checks (bind_eq_ok ite_throw_eq_ok)

/-! ## Decimal numbers -/

/-- Decimal digits only. -/
def Digits (raw : Bytes) : Prop := ∀ b ∈ raw, 0x30 ≤ b ∧ b ≤ 0x39

instance (raw : Bytes) : Decidable (Digits raw) :=
  inferInstanceAs (Decidable (∀ b ∈ raw, 0x30 ≤ b ∧ b ≤ 0x39))

/-- The number that decimal digits write. -/
def decimal (raw : Bytes) : ℕ := raw.foldl (fun n b => 10 * n + (b.toNat - 0x30)) 0

/-- The value of the digits after those that give `n`. -/
theorem foldl_decimal (raw : Bytes) (n : ℕ) :
    raw.foldl (fun n b => 10 * n + (b.toNat - 0x30)) n = n * 10 ^ raw.length + decimal raw := by
  induction raw generalizing n with
  | nil => simp [decimal]
  | cons b raw ih =>
    rw [decimal, List.foldl_cons, List.foldl_cons, ih, ih (10 * 0 + _), List.length_cons, pow_succ]
    ring

theorem decimal_append (raw raw' : Bytes) :
    decimal (raw ++ raw') = decimal raw * 10 ^ raw'.length + decimal raw' := by
  unfold decimal
  rw [List.foldl_append, foldl_decimal, decimal]

variable {raw : Bytes}

/-- A number is smaller than the power of ten with its digits. -/
theorem decimal_lt (h : Digits raw) : decimal raw < 10 ^ raw.length := by
  induction raw with
  | nil => decide
  | cons b raw ih =>
    have hb := h b List.mem_cons_self
    have hrest := ih fun b' hb' => h b' (List.mem_cons_of_mem b hb')
    have hle : b.toNat - 0x30 ≤ 9 := by
      have := UInt8.le_iff_toNat_le.mp hb.2
      have : (0x39 : UInt8).toNat = 57 := rfl
      omega
    have hsplit : decimal (b :: raw) = (b.toNat - 0x30) * 10 ^ raw.length + decimal raw := by
      rw [decimal, List.foldl_cons, foldl_decimal, Nat.mul_zero, Nat.zero_add]
    calc decimal (b :: raw) = (b.toNat - 0x30) * 10 ^ raw.length + decimal raw := hsplit
      _ < (b.toNat - 0x30) * 10 ^ raw.length + 10 ^ raw.length := by omega
      _ = (b.toNat - 0x30 + 1) * 10 ^ raw.length := by ring
      _ ≤ 10 * 10 ^ raw.length := Nat.mul_le_mul_right _ (by omega)
      _ = 10 ^ (b :: raw).length := by rw [List.length_cons, pow_succ, Nat.mul_comm]

/-- Digits, and nothing else, are read as a number. -/
theorem digits_eq_some_iff {n : ℕ} :
    digits raw = some n ↔ Digits raw ∧ n = decimal raw := by
  -- from any number that has been read so far
  have hfold : ∀ (raw : Bytes) (k : ℕ),
      raw.foldlM (fun n b => if 0x30 ≤ b ∧ b ≤ 0x39 then some (10 * n + (b.toNat - 0x30)) else none)
      k =
        some n ↔ Digits raw ∧ n = raw.foldl (fun n b => 10 * n + (b.toNat - 0x30)) k := by
    intro raw
    induction raw with
    | nil =>
      intro k
      exact ⟨fun h => ⟨nofun, (Option.some.inj h).symm⟩, fun h => congrArg some h.2.symm⟩
    | cons b raw ih =>
      intro k
      rw [List.foldlM_cons, List.foldl_cons, Digits, List.forall_mem_cons, and_assoc]
      by_cases hb : 0x30 ≤ b ∧ b ≤ 0x39
      · rw [if_pos hb]
        simp only [hb, true_and]
        exact ih _
      · rw [if_neg hb]
        exact ⟨nofun, fun h => absurd h.1 hb⟩
  exact hfold raw 0

/-- The text begins with a sign. -/
def Signed (raw : Bytes) : Prop := raw.head? = some 0x2B ∨ raw.head? = some 0x2D

instance (raw : Bytes) : Decidable (Signed raw) :=
  inferInstanceAs (Decidable (raw.head? = some 0x2B ∨ raw.head? = some 0x2D))

theorem Digits.not_signed (h : Digits raw) : ¬Signed raw := by
  cases raw with
  | nil => rintro (h | h) <;> cases h
  | cons b raw =>
    have hb := h b List.mem_cons_self
    rintro (h | h) <;> cases h <;> exact absurd hb (by decide)

/-- Without a sign `Atoi` reads digits, up to the largest integer. -/
theorem atoi_unsigned (hs : ¬Signed raw) {n : ℤ} :
    atoi raw = some n ↔ Digits raw ∧ raw ≠ [] ∧ decimal raw < 2 ^ 63 ∧ n = decimal raw := by
  cases raw with
  | nil => exact ⟨nofun, fun h => absurd rfl h.2.1⟩
  | cons b raw =>
    have hplus : b ≠ 0x2B := fun h => hs (.inl (congrArg some h))
    have hminus : b ≠ 0x2D := fun h => hs (.inr (congrArg some h))
    unfold atoi
    simp only [hplus, hminus, if_false, List.cons_ne_nil, Bool.false_eq_true, ne_eq,
      not_false_eq_true, true_and]
    cases hd : digits (b :: raw) with
    | none =>
      refine ⟨nofun, fun ⟨h, _⟩ => ?_⟩
      rw [digits_eq_some_iff.mpr ⟨h, rfl⟩] at hd
      cases hd
    | some m =>
      obtain ⟨hdigits, rfl⟩ := digits_eq_some_iff.mp hd
      dsimp only
      split_ifs with hlt
      · exact ⟨fun h => ⟨hdigits, hlt, (Option.some.inj h).symm⟩, fun h => congrArg some h.2.2.symm⟩
      · exact ⟨nofun, fun h => absurd h.2.1 hlt⟩

/-- `parseDigits` reads digits only. -/
theorem parseDigits_eq_some_iff {n : ℤ} :
    parseDigits raw = some n ↔ Digits raw ∧ raw ≠ [] ∧ decimal raw < 2 ^ 63 ∧ n = decimal raw := by
  have hall : raw.all (fun b => decide (0x30 ≤ b ∧ b ≤ 0x39)) = true ↔ Digits raw := by
    rw [List.all_eq_true]
    simp only [decide_eq_true_eq, Digits]
  unfold parseDigits
  by_cases hd : Digits raw
  · rw [if_pos (hall.mpr hd), atoi_unsigned hd.not_signed]
  · rw [if_neg (fun h => hd (hall.mp h))]
    exact ⟨nofun, fun h => absurd h.1 hd⟩

/-- Two digits always fit. -/
theorem parseDigits_two (hd : Digits raw) (hl : raw.length = 2) :
    parseDigits raw = some (decimal raw : ℤ) := by
  have hlt := decimal_lt hd
  rw [hl] at hlt
  refine parseDigits_eq_some_iff.mpr ⟨hd, ?_, by omega, rfl⟩
  rintro rfl
  cases hl

/-- A field of two digits within its bound. -/
theorem clockField_ok_iff {high n : ℤ} {e : ClockError} (hl : raw.length = 2) :
    clockField raw high e = .ok n ↔ Digits raw ∧ n = decimal raw ∧ n ≤ high := by
  unfold clockField
  by_cases hd : Digits raw
  · rw [parseDigits_two hd hl]
    dsimp only
    split_ifs with hlt
    · exact ⟨nofun, fun ⟨_, hn, hle⟩ => absurd hle (by omega)⟩
    · exact ⟨fun h => ⟨hd, (Except.ok.inj h).symm, by have := Except.ok.inj h; omega⟩,
        fun h => congrArg Except.ok h.2.1.symm⟩
  · cases hp : parseDigits raw with
    | none => exact ⟨nofun, fun h => absurd h.1 hd⟩
    | some m => exact absurd (parseDigits_eq_some_iff.mp hp).1 hd

/-- A number within its bounds. -/
theorem parseRange_ok_iff {low high n : ℤ} {field : RangeField} :
    parseRange raw low high field = .ok n ↔ atoi raw = some n ∧ low ≤ n ∧ n ≤ high := by
  unfold parseRange
  cases ha : atoi raw with
  | none => exact ⟨nofun, nofun⟩
  | some m =>
    dsimp only
    split_ifs with hout
    · refine ⟨nofun, fun ⟨hm, hlow, hhigh⟩ => ?_⟩
      rw [Option.some.inj hm] at hout
      omega
    · refine ⟨fun h => ?_, fun h => congrArg Except.ok (Option.some.inj h.1)⟩
      rw [Except.ok.inj h] at hout ⊢
      exact ⟨rfl, by omega, by omega⟩

/-! ## The time field -/

/-- A time field as it is written: hours, minutes, seconds, and what follows a point. -/
structure TimeText where
  hh : Bytes
  mm : Bytes
  ss : Bytes
  point : Option Bytes

/-- The text of a time field. -/
def TimeText.text (w : TimeText) : Bytes :=
  w.hh ++ w.mm ++ w.ss ++ w.point.elim [] (0x2E :: ·)

/-- The digits of the fraction. -/
def TimeText.fraction (w : TimeText) : Bytes := w.point.getD []

/-- `hhmmss` in digits, with an optional fraction in digits, and no second 60. -/
structure TimeText.WellFormed (w : TimeText) : Prop where
  hh_length : w.hh.length = 2
  mm_length : w.mm.length = 2
  ss_length : w.ss.length = 2
  hh_digits : Digits w.hh
  mm_digits : Digits w.mm
  ss_digits : Digits w.ss
  fraction_digits : Digits w.fraction
  hour_le : decimal w.hh ≤ 23
  minute_le : decimal w.mm ≤ 59
  second_lt : decimal w.ss < 60

/-- The nanoseconds of a fraction, cut off after the ninth digit. -/
def nanoseconds (frac : Bytes) : ℕ := decimal frac * 10 ^ 9 / 10 ^ frac.length

/-- The time that is written. -/
def TimeText.time (w : TimeText) : ClockTime where
  hour := decimal w.hh
  minute := decimal w.mm
  second := decimal w.ss
  nsec := nanoseconds w.fraction

theorem decimal_replicate (n : ℕ) : decimal (List.replicate n 0x30) = 0 := by
  induction n with
  | zero => rfl
  | succ n ih =>
    rw [List.replicate_succ, decimal, List.foldl_cons, foldl_decimal, ih]
    exact Nat.zero_mul _

/-- Cutting off or padding to nine digits gives the nanoseconds. -/
theorem decimal_nine {frac : Bytes} (h : Digits frac) :
    decimal (frac.take 9 ++ List.replicate (9 - frac.length) 0x30) = nanoseconds frac := by
  rw [decimal_append, decimal_replicate, Nat.add_zero, List.length_replicate, nanoseconds]
  rcases Nat.le_total frac.length 9 with hle | hge
  · have hpow : (10 : ℕ) ^ 9 = 10 ^ (9 - frac.length) * 10 ^ frac.length := by
      rw [← pow_add, Nat.sub_add_cancel hle]
    rw [List.take_of_length_le hle, hpow, ← Nat.mul_assoc, Nat.mul_div_cancel _ (by positivity)]
  · have hdrop : (frac.drop 9).length = frac.length - 9 := List.length_drop
    have hlt : decimal (frac.drop 9) < 10 ^ (frac.length - 9) := by
      rw [← hdrop]
      exact decimal_lt fun b hb => h b (List.mem_of_mem_drop hb)
    have hsplit : decimal frac =
        decimal (frac.take 9) * 10 ^ (frac.length - 9) + decimal (frac.drop 9) := by
      rw [← hdrop, ← decimal_append, List.take_append_drop]
    have hpow : (10 : ℕ) ^ frac.length = 10 ^ (frac.length - 9) * 10 ^ 9 := by
      rw [← pow_add, Nat.sub_add_cancel hge]
    rw [Nat.sub_eq_zero_of_le hge, pow_zero, Nat.mul_one, hpow,
      Nat.mul_div_mul_right _ _ (by positivity), hsplit]
    rw [Nat.add_comm, Nat.add_mul_div_right _ _ (by positivity), Nat.div_eq_of_lt hlt, Nat.zero_add]

/-- A fraction is read in nanoseconds. -/
theorem parseFraction_ok_iff {frac : Bytes} {ns : ℤ} :
    parseFraction frac = .ok ns ↔
      Digits frac ∧ decimal frac < 2 ^ 63 ∧ ns = nanoseconds frac := by
  unfold parseFraction
  by_cases hnil : frac = []
  · subst hnil
    rw [if_pos rfl]
    exact ⟨fun h => ⟨nofun, by decide, (Except.ok.inj h).symm⟩,
      fun h => congrArg Except.ok h.2.2.symm⟩
  rw [if_neg hnil]
  cases hp : parseDigits frac with
  | none =>
    refine ⟨nofun, fun ⟨hd, hlt, _⟩ => ?_⟩
    rw [parseDigits_eq_some_iff.mpr ⟨hd, hnil, hlt, rfl⟩] at hp
    cases hp
  | some n =>
    obtain ⟨hd, -, hlt, -⟩ := parseDigits_eq_some_iff.mp hp
    -- nine digits always fit
    have hnine : parseDigits (frac.take 9 ++ List.replicate (9 - frac.length) 0x30) =
        some (nanoseconds frac : ℤ) := by
      have hdigits : Digits (frac.take 9 ++ List.replicate (9 - frac.length) 0x30) := by
        intro b hb
        rcases List.mem_append.mp hb with hb | hb
        · exact hd b (List.mem_of_mem_take hb)
        · rw [List.eq_of_mem_replicate hb]
          decide
      have hlen : (frac.take 9 ++ List.replicate (9 - frac.length) (0x30 : UInt8)).length = 9 := by
        rw [List.length_append, List.length_take, List.length_replicate]
        omega
      have hsmall := decimal_lt hdigits
      rw [hlen] at hsmall
      rw [← decimal_nine hd]
      refine parseDigits_eq_some_iff.mpr ⟨hdigits, ?_, hsmall.trans (by decide), rfl⟩
      intro h
      rw [h] at hlen
      cases hlen
    dsimp only
    rw [hnine]
    exact ⟨fun h => ⟨hd, hlt, (Except.ok.inj h).symm⟩, fun h => congrArg Except.ok h.2.2.symm⟩

/-- `strings.Cut` of what is written around the first point. -/
theorem cutPoint_text {whole : Bytes} (h : 0x2E ∉ whole) (point : Option Bytes) :
    cutPoint (whole ++ point.elim [] (0x2E :: ·)) = (whole, point.getD []) := by
  have hall : ∀ b ∈ whole, (b != 0x2E) = true := by
    intro b hb
    rw [bne_iff_ne]
    rintro rfl
    exact h hb
  unfold cutPoint
  cases point with
  | none =>
    rw [Option.elim_none, List.append_nil, List.takeWhile_eq_self_iff.mpr hall,
      List.dropWhile_eq_nil_iff.mpr hall]
    rfl
  | some frac =>
    rw [Option.elim_some, List.takeWhile_append_of_pos hall, List.dropWhile_append_of_pos hall]
    simp

/-- Every text is cut so. -/
theorem exists_cutPoint (raw : Bytes) : ∃ point : Option Bytes, 0x2E ∉ (cutPoint raw).1 ∧
    raw = (cutPoint raw).1 ++ point.elim [] (0x2E :: ·) := by
  have hno : 0x2E ∉ raw.takeWhile (· != 0x2E) := by
    intro h
    exact absurd (List.mem_takeWhile_imp h) (by decide)
  cases hd : raw.dropWhile (· != 0x2E) with
  | nil =>
    refine ⟨none, hno, ?_⟩
    show raw = raw.takeWhile (· != 0x2E) ++ []
    rw [← hd, List.takeWhile_append_dropWhile]
  | cons b frac =>
    obtain rfl : b = 0x2E := by
      have h := List.head?_dropWhile_not (· != 0x2E) raw
      rw [hd] at h
      simpa using h
    refine ⟨some frac, hno, ?_⟩
    show raw = raw.takeWhile (· != 0x2E) ++ 0x2E :: frac
    rw [← hd, List.takeWhile_append_dropWhile]

variable {c : ClockTime}

/-- **The time field**: `parseNMEAClock` accepts the well-formed texts, if the digits of
the fraction fit into an integer. -/
theorem parseNMEAClock_ok_iff :
    parseNMEAClock raw = .ok c ↔ ∃ w : TimeText, raw = w.text ∧ w.WellFormed ∧ c = w.time ∧
      decimal w.fraction < 2 ^ 63 := by
  constructor
  · intro h
    obtain ⟨point, hpoint, htext⟩ := exists_cutPoint raw
    have hcut := cutPoint_text hpoint point
    rw [← htext] at hcut
    have hfrac : (cutPoint raw).2 = point.getD [] := congrArg Prod.snd hcut
    unfold parseNMEAClock at h
    dsimp only at h
    rw [hfrac] at h
    generalize (cutPoint raw).1 = whole at h htext
    obtain ⟨hlen, h⟩ := ite_throw_eq_ok.mp h
    rw [not_not] at hlen
    obtain ⟨hour, hhour, h⟩ := bind_eq_ok.mp h
    obtain ⟨minute, hminute, h⟩ := bind_eq_ok.mp h
    obtain ⟨second, hsecond, h⟩ := bind_eq_ok.mp h
    obtain ⟨hsixty, h⟩ := ite_throw_eq_ok.mp h
    obtain ⟨nsec, hnsec, h⟩ := bind_eq_ok.mp h
    have hhh : (whole.take 2).length = 2 := by rw [List.length_take]; omega
    have hmm : ((whole.drop 2).take 2).length = 2 := by
      rw [List.length_take, List.length_drop]; omega
    have hss : (whole.drop 4).length = 2 := by rw [List.length_drop]; omega
    obtain ⟨hhd, rfl, hhle⟩ := (clockField_ok_iff hhh).mp hhour
    obtain ⟨hmd, rfl, hmle⟩ := (clockField_ok_iff hmm).mp hminute
    obtain ⟨hsd, rfl, hsle⟩ := (clockField_ok_iff hss).mp hsecond
    have hslt : decimal (whole.drop 4) < 60 := by omega
    obtain ⟨hfd, hflt, rfl⟩ := parseFraction_ok_iff.mp hnsec
    have hwhole : whole.take 2 ++ (whole.drop 2).take 2 ++ whole.drop 4 = whole := by
      rw [List.append_assoc, ← List.drop_drop (i := 2) (j := 2), List.take_append_drop,
        List.take_append_drop]
    refine ⟨⟨whole.take 2, (whole.drop 2).take 2, whole.drop 4, point⟩, ?_, ?_, ?_, hflt⟩
    · rw [TimeText.text, hwhole]
      exact htext
    · exact ⟨hhh, hmm, hss, hhd, hmd, hsd, hfd, Int.ofNat_le.mp hhle, Int.ofNat_le.mp hmle,
        hslt⟩
    · exact (Except.ok.inj h).symm
  · rintro ⟨⟨hh, mm, ss, point⟩, rfl, hw, rfl, hlt⟩
    obtain ⟨hhh, hmm, hss, hhd, hmd, hsd, hfd, hhle, hmle, hslt⟩ := hw
    dsimp only at hhh hmm hss hhd hmd hsd hhle hmle hslt
    have hpoint : 0x2E ∉ hh ++ mm ++ ss := by
      intro h
      have hd : (0x30 : UInt8) ≤ 0x2E ∧ (0x2E : UInt8) ≤ 0x39 := by
        rcases List.mem_append.mp h with h | h
        · rcases List.mem_append.mp h with h | h
          · exact hhd _ h
          · exact hmd _ h
        · exact hsd _ h
      exact absurd hd (by decide)
    have hcut := cutPoint_text hpoint point
    have htake : (hh ++ mm ++ ss).take 2 = hh := by
      rw [List.append_assoc, List.take_left' hhh]
    have hmid : ((hh ++ mm ++ ss).drop 2).take 2 = mm := by
      rw [List.append_assoc, List.drop_left' hhh, List.take_left' hmm]
    have hend : (hh ++ mm ++ ss).drop 4 = ss :=
      List.drop_left' (by rw [List.length_append, hhh, hmm])
    unfold parseNMEAClock TimeText.text
    dsimp only
    rw [hcut]
    dsimp only
    rw [htake, hmid, hend]
    refine ite_throw_eq_ok.mpr ⟨?_, ?_⟩
    · rw [List.length_append, List.length_append, hhh, hmm, hss]
      decide
    refine bind_eq_ok.mpr ⟨decimal hh, (clockField_ok_iff hhh).mpr ⟨hhd, rfl, by omega⟩, ?_⟩
    refine bind_eq_ok.mpr ⟨decimal mm, (clockField_ok_iff hmm).mpr ⟨hmd, rfl, by omega⟩, ?_⟩
    refine bind_eq_ok.mpr ⟨decimal ss, (clockField_ok_iff hss).mpr ⟨hsd, rfl, by omega⟩, ?_⟩
    refine ite_throw_eq_ok.mpr ⟨by omega, ?_⟩
    exact bind_eq_ok.mpr ⟨_, parseFraction_ok_iff.mpr ⟨hfd, hlt, rfl⟩, rfl⟩

/-! ## The frame -/

theorem splitComma_of_not_mem {field : Bytes} (h : 0x2C ∉ field) : splitComma field = [field] := by
  induction field with
  | nil => rfl
  | cons b field ih =>
    rw [List.mem_cons, not_or] at h
    rw [splitComma, if_neg (fun hb => h.1 hb.symm), ih h.2]

theorem splitComma_append {field : Bytes} (h : 0x2C ∉ field) (rest : Bytes) :
    splitComma (field ++ 0x2C :: rest) = field :: splitComma rest := by
  induction field with
  | nil => rw [List.nil_append, splitComma, if_pos rfl]
  | cons b field ih =>
    rw [List.mem_cons, not_or] at h
    rw [List.cons_append, splitComma, if_neg (fun hb => h.1 hb.symm), ih h.2]

/-- There is always a field, and no field has a comma. -/
theorem splitComma_spec (body : Bytes) :
    splitComma body ≠ [] ∧ (∀ f ∈ splitComma body, 0x2C ∉ f) ∧
      [0x2C].intercalate (splitComma body) = body := by
  induction body with
  | nil => exact ⟨nofun, by simp [splitComma], rfl⟩
  | cons b body ih =>
    obtain ⟨hne, hno, hjoin⟩ := ih
    obtain ⟨field, fields, hf⟩ := List.exists_cons_of_ne_nil hne
    rw [splitComma]
    rw [hf] at hno hjoin ⊢
    by_cases hb : b = 0x2C
    · rw [if_pos hb]
      refine ⟨nofun, ?_, ?_⟩
      · rw [List.forall_mem_cons]
        exact ⟨List.not_mem_nil, hno⟩
      · rw [List.intercalate_cons_cons, hjoin, hb]
        rfl
    · rw [if_neg hb]
      dsimp only
      rw [List.forall_mem_cons] at hno
      refine ⟨nofun, ?_, ?_⟩
      · rw [List.forall_mem_cons, List.mem_cons, not_or]
        exact ⟨⟨fun h => hb h.symm, hno.1⟩, hno.2⟩
      · rw [← hjoin]
        cases fields with
        | nil => rfl
        | cons g fields =>
          rw [List.intercalate_cons_cons, List.intercalate_cons_cons]
          rfl

variable {fields : List Bytes}

/-- The fields of a text are the texts without a comma that give it with commas between
them. -/
theorem splitComma_eq_iff {body : Bytes} :
    splitComma body = fields ↔
      fields ≠ [] ∧ (∀ f ∈ fields, 0x2C ∉ f) ∧ [0x2C].intercalate fields = body := by
  constructor
  · rintro rfl
    exact splitComma_spec body
  · rintro ⟨hne, hno, rfl⟩
    induction fields with
    | nil => exact absurd rfl hne
    | cons field fields ih =>
      rw [List.forall_mem_cons] at hno
      cases fields with
      | nil =>
        rw [List.intercalate_singleton]
        exact splitComma_of_not_mem hno.1
      | cons g fields =>
        rw [List.intercalate_cons_cons, List.append_assoc, List.singleton_append,
          splitComma_append hno.1, ih (List.cons_ne_nil g fields) hno.2]

theorem lastStar_of_not_mem {s : Bytes} (h : 0x2A ∉ s) : lastStar s = none := by
  induction s with
  | nil => rfl
  | cons b s ih =>
    rw [List.mem_cons, not_or] at h
    rw [lastStar, ih h.2]
    exact if_neg (Ne.symm h.1)

theorem lastStar_append {after : Bytes} (h : 0x2A ∉ after) (before : Bytes) :
    lastStar (before ++ 0x2A :: after) = some before.length := by
  induction before with
  | nil =>
    rw [List.nil_append, lastStar, lastStar_of_not_mem h]
    rfl
  | cons b before ih =>
    rw [List.cons_append, lastStar, ih]
    rfl

/-- The last star, with none after it. -/
theorem lastStar_eq_some_iff {s : Bytes} {i : ℕ} :
    lastStar s = some i ↔ ∃ before after, s = before ++ 0x2A :: after ∧ 0x2A ∉ after ∧
      before.length = i := by
  constructor
  · intro h
    have hmem : 0x2A ∈ s := by
      by_contra hno
      rw [lastStar_of_not_mem hno] at h
      cases h
    -- the last asterisk is the first one from the end
    obtain ⟨after, before, hs, hno⟩ := List.eq_append_cons_of_mem (List.mem_reverse.mpr hmem)
    have hsplit : s = before.reverse ++ 0x2A :: after.reverse := by
      rw [← List.reverse_reverse s, hs, List.reverse_append, List.reverse_cons, List.append_assoc]
      rfl
    have hafter : 0x2A ∉ after.reverse := fun hm => hno (List.mem_reverse.mp hm)
    refine ⟨before.reverse, after.reverse, hsplit, hafter, ?_⟩
    rw [hsplit, lastStar_append hafter] at h
    exact Option.some.inj h
  · rintro ⟨before, after, rfl, hno, rfl⟩
    exact lastStar_append hno before

/-- The exclusive or of all bytes. -/
def checksum (body : Bytes) : UInt8 := body.foldl (· ^^^ ·) 0

/-- The line, without the white space around it, is a `$`, the fields with commas between
them, and after an asterisk the checksum in two hexadecimal digits. -/
structure Framed (line : Bytes) (fields : List Bytes) : Prop where
  fields_ne : fields ≠ []
  no_comma : ∀ f ∈ fields, 0x2C ∉ f
  frame : ∃ h l : UInt8, trimSpace line = 0x24 :: [0x2C].intercalate fields ++ [0x2A, h, l] ∧
    ∃ x y, hexDigit h = some x ∧ hexDigit l = some y ∧
      16 * x + y = (checksum ([0x2C].intercalate fields)).toNat

theorem hexDigit_lt {b : UInt8} {x : ℕ} (h : hexDigit b = some x) : x < 16 ∧ b ≠ 0x2A := by
  unfold hexDigit at h
  split_ifs at h with hnum hupper hlower
  · have hle : b.toNat ≤ 57 := UInt8.le_iff_toNat_le.mp hnum.2
    have hx := Option.some.inj h
    exact ⟨by omega, fun hb => absurd hnum.1 (by rw [hb]; decide)⟩
  · have hle : b.toNat ≤ 70 := UInt8.le_iff_toNat_le.mp hupper.2
    have hx := Option.some.inj h
    exact ⟨by omega, fun hb => absurd hupper.1 (by rw [hb]; decide)⟩
  · have hle : b.toNat ≤ 102 := UInt8.le_iff_toNat_le.mp hlower.2
    have hx := Option.some.inj h
    exact ⟨by omega, fun hb => absurd hlower.1 (by rw [hb]; decide)⟩

/-- `ParseUint` of two bytes. -/
theorem parseHex_two {h l want : UInt8} :
    parseHex [h, l] = some want ↔
      ∃ x y, hexDigit h = some x ∧ hexDigit l = some y ∧ 16 * x + y = want.toNat := by
  unfold parseHex
  rw [if_neg (List.cons_ne_nil _ _)]
  simp only [List.foldlM_cons, List.foldlM_nil]
  cases hh : hexDigit h with
  | none => exact ⟨nofun, nofun⟩
  | some x =>
    cases hl : hexDigit l with
    | none => exact ⟨nofun, nofun⟩
    | some y =>
      have hx := (hexDigit_lt hh).1
      have hy := (hexDigit_lt hl).1
      have hlt : 16 * x + y < 256 := by omega
      have hval : (if 16 * (16 * 0 + x) + y < 2 ^ 8 then
          some (UInt8.ofNat (16 * (16 * 0 + x) + y)) else none) =
            some (UInt8.ofNat (16 * x + y)) := by
        rw [Nat.mul_zero, Nat.zero_add]
        exact if_pos hlt
      have hnat : (UInt8.ofNat (16 * x + y)).toNat = 16 * x + y := by
        rw [UInt8.toNat_ofNat']
        exact Nat.mod_eq_of_lt hlt
      constructor
      · intro h
        refine ⟨x, y, rfl, rfl, ?_⟩
        have h' := hval.symm.trans h
        rw [← Option.some.inj h', hnat]
      · rintro ⟨x', y', hx', hy', heq⟩
        cases hx'
        cases hy'
        refine hval.trans (congrArg some (UInt8.toNat_inj.mp ?_))
        rw [hnat, heq]

/-- The parts of a frame, as `parseFrame` slices it at the asterisk. -/
theorem frame_slices (body tail : Bytes) :
    (0x24 :: body ++ 0x2A :: tail).drop ((0x24 :: body).length + 1) = tail ∧
      ((0x24 :: body ++ 0x2A :: tail).take (0x24 :: body).length).drop 1 = body := by
  rw [← List.drop_drop, List.drop_left, List.take_left]
  exact ⟨rfl, rfl⟩

variable {line : Bytes}

/-- **The frame**: `parseFrame` accepts the framed lines within the length limit, and
gives the fields. -/
theorem parseFrame_ok_iff :
    parseFrame line = .ok fields ↔ Framed line fields ∧ (trimSpace line).length ≤ maxNMEALine := by
  unfold parseFrame
  dsimp only
  rw [ite_throw_eq_ok, ite_throw_eq_ok, not_or, not_lt, not_not]
  constructor
  · rintro ⟨⟨-, hlen⟩, hstart, h⟩
    refine ⟨?_, hlen⟩
    cases hstar : lastStar (trimSpace line) with
    | none =>
      rw [hstar] at h
      cases h
    | some star =>
      rw [hstar] at h
      dsimp only at h
      obtain ⟨hend, h⟩ := ite_throw_eq_ok.mp h
      rw [not_not] at hend
      obtain ⟨before, after, htrim, -, rfl⟩ := lastStar_eq_some_iff.mp hstar
      cases before with
      | nil =>
        rw [htrim] at hstart
        cases hstart
      | cons b body =>
        rw [htrim] at hstart hend h
        obtain rfl : b = 0x24 := Option.some.inj hstart
        have hafter : after.length = 2 := by
          simp only [List.length_append, List.length_cons] at hend
          omega
        match after, hafter with
        | [x, y], _ =>
          obtain ⟨hdrop, htake⟩ := frame_slices body [x, y]
          rw [hdrop, htake] at h
          cases hhex : parseHex [x, y] with
          | none =>
            rw [hhex] at h
            cases h
          | some want =>
            rw [hhex] at h
            dsimp only at h
            obtain ⟨hsum, h⟩ := ite_throw_eq_ok.mp h
            rw [not_not] at hsum
            obtain ⟨hne, hno, hjoin⟩ := splitComma_eq_iff.mp (Except.ok.inj h)
            rw [← hsum] at hhex
            refine ⟨hne, hno, x, y, ?_, ?_⟩
            · rw [htrim, hjoin]
            · rw [hjoin]
              exact parseHex_two.mp hhex
  · rintro ⟨⟨hne, hno, x, y, htrim, hhex⟩, hlen⟩
    have ⟨a, b, ha, hb, _⟩ := hhex
    have hstar : lastStar (trimSpace line) = some (0x24 :: [0x2C].intercalate fields).length := by
      refine lastStar_eq_some_iff.mpr ⟨_, [x, y], htrim, ?_, rfl⟩
      simp only [List.mem_cons, List.not_mem_nil, or_false, not_or]
      exact ⟨fun h => (hexDigit_lt ha).2 h.symm, fun h => (hexDigit_lt hb).2 h.symm⟩
    refine ⟨⟨?_, hlen⟩, ?_, ?_⟩
    · rw [htrim]
      exact nofun
    · rw [htrim]
      rfl
    rw [hstar]
    dsimp only
    refine ite_throw_eq_ok.mpr ⟨?_, ?_⟩
    · rw [htrim, List.length_append]
      simp
    obtain ⟨hdrop, htake⟩ := frame_slices ([0x2C].intercalate fields) [x, y]
    rw [htrim, hdrop, htake, parseHex_two.mpr hhex]
    dsimp only
    refine ite_throw_eq_ok.mpr ⟨not_not.mpr rfl, ?_⟩
    exact congrArg Except.ok (splitComma_eq_iff.mpr ⟨hne, hno, rfl⟩)

/-- A line has one frame. -/
theorem Framed.unique {fields fields' : List Bytes} (h : Framed line fields)
    (h' : Framed line fields') : fields = fields' := by
  obtain ⟨x, y, ht, -⟩ := h.frame
  obtain ⟨x', y', ht', -⟩ := h'.frame
  have heq := ht.symm.trans ht'
  have hbody : 0x24 :: [0x2C].intercalate fields = 0x24 :: [0x2C].intercalate fields' :=
    (List.append_inj' heq rfl).1
  have hjoin := (List.cons.inj hbody).2
  rw [← splitComma_eq_iff.mpr ⟨h.fields_ne, h.no_comma, rfl⟩,
    ← splitComma_eq_iff.mpr ⟨h'.fields_ne, h'.no_comma, rfl⟩, hjoin]

/-! ## Instants -/

/-- The calendar and clock fields of an instant. -/
structure HasFields (t : ℤ) (d : Gregorian.Date) (c : ClockTime) : Prop where
  date_eq : dateOf t = d
  hour_eq : t % day / hour = c.hour
  minute_eq : t % hour / minute = c.minute
  second_eq : t % minute / second = c.second
  nsec_eq : t % second = c.nsec

/-- A time of day whose fields are in their ranges. -/
structure ClockTime.InRange (c : ClockTime) : Prop where
  hour : 0 ≤ c.hour ∧ c.hour ≤ 23
  minute : 0 ≤ c.minute ∧ c.minute ≤ 59
  second : 0 ≤ c.second ∧ c.second ≤ 59
  nsec : 0 ≤ c.nsec ∧ c.nsec < 1000000000

theorem date_ediv_day (d : Gregorian.Date) (hc : c.InRange) :
    date d c / day = Gregorian.dayNumber d := by
  obtain ⟨hh, hm, hs, hn⟩ := hc
  rw [Int.ediv_eq_iff_of_pos day_pos]
  unfold date midnight
  simp only [day, hour, minute, second]
  omega

/-- The date of the instant is the given one exactly when the calendar has it. -/
theorem dateOf_date (d : Gregorian.Date) (hc : c.InRange) :
    dateOf (date d c) = dateOf (midnight d) := by
  rw [dateOf, dateOf, date_ediv_day d hc, midnight, Int.mul_ediv_cancel _ (ne_of_gt day_pos)]

/-- **There is one instant with the given fields.** -/
theorem hasFields_iff {d : Gregorian.Date} (hd : dateOf (midnight d) = d) (hc : c.InRange) (t : ℤ) :
    HasFields t d c ↔ t = date d c := by
  constructor
  · rintro ⟨hdate, hhour, hminute, hsecond, hnsec⟩
    have hday : t / day = Gregorian.dayNumber d := by
      rw [← hdate, dateOf, Gregorian.dayNumber_civil]
    unfold date midnight
    rw [← hday, ← hhour, ← hminute, ← hsecond, ← hnsec]
    simp only [day, hour, minute, second]
    omega
  · rintro rfl
    have hdate : dateOf (date d c) = d := by rw [dateOf_date d hc, hd]
    obtain ⟨hh, hm, hs, hn⟩ := hc
    refine ⟨hdate, ?_, ?_, ?_, ?_⟩ <;> unfold date midnight <;>
      simp only [day, hour, minute, second] <;> omega

theorem TimeText.WellFormed.inRange {w : TimeText} (h : w.WellFormed) : w.time.InRange := by
  have hfrac := decimal_lt h.fraction_digits
  have hns : nanoseconds w.fraction < 1000000000 := by
    rw [nanoseconds, Nat.div_lt_iff_lt_mul (by positivity)]
    have : (1000000000 : ℕ) = 10 ^ 9 := by norm_num
    rw [this, Nat.mul_comm]
    exact Nat.mul_lt_mul_of_pos_left hfrac (by positivity)
  have hh := h.hour_le
  have hm := h.minute_le
  have hs := h.second_lt
  refine ⟨?_, ?_, ?_, ?_⟩ <;> unfold TimeText.time <;> dsimp only <;> omega

/-! ## The date fields -/

/-- The years that a kind of sentence is read for. -/
def SentenceKind.years : SentenceKind → ℤ × ℤ
  | .rmc => (2000, 2099)
  | .zda => (2000, 9999)
  | .gga => (0, 0)

/-- What is added to the year that is written. -/
def SentenceKind.century : SentenceKind → ℤ
  | .rmc => 2000
  | _ => 0

/-- The day, the month and the year as they are written. -/
structure DateText where
  dd : Bytes
  mm : Bytes
  yy : Bytes

/-- Where the date of a sentence stands: in six bytes of one field, or in three fields. -/
def dateText (kind : SentenceKind) (fields : List Bytes) : DateText :=
  match kind with
  | .rmc =>
    let raw := fields.getD 9 []
    ⟨raw.take 2, (raw.drop 2).take 2, raw.drop 4⟩
  | .zda => ⟨fields.getD 2 [], fields.getD 3 [], fields.getD 4 []⟩
  | .gga => ⟨[], [], []⟩

/-- The date that is written. -/
def DateText.date (w : DateText) (kind : SentenceKind) : Gregorian.Date :=
  ⟨kind.century + decimal w.yy, decimal w.mm, decimal w.dd⟩

/-- Decimal digits in all parts of a date. -/
structure DateText.Decimal (w : DateText) : Prop where
  dd : Digits w.dd ∧ w.dd ≠ []
  mm : Digits w.mm ∧ w.mm ≠ []
  yy : Digits w.yy ∧ w.yy ≠ []

/-- No part of a date begins with a sign. -/
structure DateText.Unsigned (w : DateText) : Prop where
  dd : ¬Signed w.dd
  mm : ¬Signed w.mm
  yy : ¬Signed w.yy

theorem DateText.Decimal.unsigned {w : DateText} (h : w.Decimal) : w.Unsigned :=
  ⟨h.dd.1.not_signed, h.mm.1.not_signed, h.yy.1.not_signed⟩

/-- What the parsers read from the fields as the date and the time. -/
structure Dated (kind : SentenceKind) (fields : List Bytes) (d : Gregorian.Date) (c : ClockTime) :
    Prop where
  clock : parseNMEAClock (fields.getD 1 []) = .ok c
  dd : atoi (dateText kind fields).dd = some d.day
  mm : atoi (dateText kind fields).mm = some d.month
  yy : atoi (dateText kind fields).yy = some (d.year - kind.century)
  day : 1 ≤ d.day ∧ d.day ≤ 31
  month : 1 ≤ d.month ∧ d.month ≤ 12
  year : kind.years.1 ≤ d.year ∧ d.year ≤ kind.years.2
  calendar : dateOf (midnight d) = d

theorem clock_inRange (h : parseNMEAClock raw = .ok c) : c.InRange := by
  obtain ⟨w, -, hw, rfl, -⟩ := parseNMEAClock_ok_iff.mp h
  exact hw.inRange

variable {kind : SentenceKind}

/-- Without signs the date is the one that the digits write. -/
theorem Dated.written {d : Gregorian.Date} (h : Dated kind fields d c)
    (hs : (dateText kind fields).Unsigned) :
    (dateText kind fields).Decimal ∧ (dateText kind fields).date kind = d := by
  obtain ⟨hdd, hdne, -, hday⟩ := (atoi_unsigned hs.dd).mp h.dd
  obtain ⟨hmd, hmne, -, hmonth⟩ := (atoi_unsigned hs.mm).mp h.mm
  obtain ⟨hyd, hyne, -, hyear⟩ := (atoi_unsigned hs.yy).mp h.yy
  refine ⟨⟨⟨hdd, hdne⟩, ⟨hmd, hmne⟩, ⟨hyd, hyne⟩⟩, ?_⟩
  unfold DateText.date
  rw [← hday, ← hmonth, ← hyear, add_sub_cancel]

/-- A date of the calendar that is written in digits is read. -/
theorem Dated.of_decimal
    (hclock : parseNMEAClock (fields.getD 1 []) = .ok c) (hw : (dateText kind fields).Decimal)
    (hvalid : ((dateText kind fields).date kind).Valid)
    (hyear : kind.years.1 ≤ ((dateText kind fields).date kind).year ∧
      ((dateText kind fields).date kind).year ≤ kind.years.2) :
    Dated kind fields ((dateText kind fields).date kind) c := by
  obtain ⟨⟨hm1, hm2⟩, hd1, hd2⟩ := hvalid
  have hd31 : ((dateText kind fields).date kind).day ≤ 31 := by
    refine hd2.trans ?_
    unfold Gregorian.daysIn
    have := (Gregorian.leapDay_range ((dateText kind fields).date kind).year).2
    split_ifs <;> omega
  have hread : ∀ {raw : Bytes}, Digits raw ∧ raw ≠ [] → decimal raw ≤ 9999 →
      atoi raw = some (decimal raw : ℤ) := by
    intro raw hraw hle
    exact (atoi_unsigned hraw.1.not_signed).mpr ⟨hraw.1, hraw.2, by omega, rfl⟩
  have hyy : decimal (dateText kind fields).yy ≤ 9999 := by
    have h := hyear.2
    have hlast : kind.years.2 ≤ 9999 := by cases kind <;> decide
    have hcentury : 0 ≤ kind.century := by cases kind <;> decide
    unfold DateText.date at h
    dsimp only at h
    omega
  refine ⟨hclock, hread hw.dd ?_, hread hw.mm ?_, ?_, ⟨hd1, hd31⟩, ⟨hm1, hm2⟩, hyear, ?_⟩
  · exact Int.ofNat_le.mp (hd31.trans (by decide))
  · exact Int.ofNat_le.mp (hm2.trans (by decide))
  · rw [hread hw.yy hyy, DateText.date, add_sub_cancel_left]
  · rw [dateOf, midnight, Int.mul_ediv_cancel _ (ne_of_gt day_pos)]
    exact Gregorian.civil_dayNumber ⟨⟨hm1, hm2⟩, hd1, hd2⟩

/-! ## Sentences -/

/-- The parser for a kind of sentence. -/
def parseKind (kind : SentenceKind) (fields : List Bytes) : Except SentenceError Sentence :=
  match kind with
  | .rmc => parseRMC fields
  | .zda => parseZDA fields
  | .gga => parseGGA fields

/-- The name of a kind of sentence. -/
def SentenceKind.name : SentenceKind → Bytes
  | .rmc => ascii "RMC"
  | .zda => ascii "ZDA"
  | .gga => ascii "GGA"

/-- The first field is a talker that is read, and the kind. -/
def Identified (kind : SentenceKind) (fields : List Bytes) : Prop :=
  ∃ talker ∈ talkers, fields.head? = some (talker ++ kind.name)

theorem parseTime_ok_iff :
    parseTime kind raw = .ok c ↔ parseNMEAClock raw = .ok c := by
  unfold parseTime
  cases parseNMEAClock raw with
  | error e => exact ⟨nofun, nofun⟩
  | ok c' =>
    refine ⟨fun h => ?_, fun h => ?_⟩
    · rw [Except.ok.inj h]
    · rw [Except.ok.inj h]

/-- The sentence that is made of a date and a time. -/
def datedSentence (kind : SentenceKind) (valid : Bool) (d : Gregorian.Date) (c : ClockTime) :
    Sentence where
  kind := kind
  timestamp := date d c
  valid := valid
  fixQuality := 0
  satellites := 0
  fractional := c.nsec ≠ 0

/-- The fields that a kind of sentence has to have, apart from its time and its date. -/
def Complete (kind : SentenceKind) (fields : List Bytes) : Prop :=
  match kind with
  | .rmc => 10 ≤ fields.length ∧ (fields.getD 9 []).length = 6 ∧
      (fields.getD 2 [] = ascii "A" ∨ fields.getD 2 [] = ascii "V")
  | .zda => 5 ≤ fields.length
  | .gga => 8 ≤ fields.length

variable {s : Sentence}

/-- The RMC sentences. -/
theorem parseRMC_ok_iff :
    parseRMC fields = .ok s ↔ Complete .rmc fields ∧ ∃ d c, Dated .rmc fields d c ∧
      s = datedSentence .rmc (fields.getD 2 [] = ascii "A") d c := by
  unfold parseRMC
  dsimp only
  rw [ite_throw_eq_ok, not_lt]
  constructor
  · rintro ⟨hlen, h⟩
    obtain ⟨c, hc, h⟩ := bind_eq_ok.mp h
    obtain ⟨d, hd, h⟩ := bind_eq_ok.mp h
    obtain ⟨hstatus, h⟩ := ite_throw_eq_ok.mp h
    unfold parseRMCDate at hd
    obtain ⟨hsix, hd⟩ := ite_throw_eq_ok.mp hd
    obtain ⟨dd, hdd, hd⟩ := bind_eq_ok.mp hd
    obtain ⟨mm, hmm, hd⟩ := bind_eq_ok.mp hd
    obtain ⟨yy, hyy, hd⟩ := bind_eq_ok.mp hd
    obtain ⟨hcal, hd⟩ := ite_throw_eq_ok.mp hd
    obtain rfl := Except.ok.inj hd
    obtain ⟨hdd, hday⟩ := parseRange_ok_iff.mp hdd
    obtain ⟨hmm, hmonth⟩ := parseRange_ok_iff.mp hmm
    obtain ⟨hyy, hyear⟩ := parseRange_ok_iff.mp hyy
    refine ⟨⟨hlen, not_not.mp hsix, ?_⟩, _, c, ?_, (Except.ok.inj h).symm⟩
    · by_contra hno
      exact hstatus (not_or.mp hno)
    · refine ⟨parseTime_ok_iff.mp hc, hdd, hmm, ?_, hday, hmonth, ?_, not_not.mp hcal⟩
      · exact hyy.trans (congrArg some (add_sub_cancel_left _ _).symm)
      · show 2000 ≤ 2000 + yy ∧ 2000 + yy ≤ 2099
        omega
  · rintro ⟨⟨hlen, hsix, hstatus⟩, d, c, hd, rfl⟩
    have hyear : 2000 + (d.year - 2000) = d.year := by omega
    refine ⟨hlen, bind_eq_ok.mpr ⟨c, parseTime_ok_iff.mpr hd.clock, ?_⟩⟩
    refine bind_eq_ok.mpr ⟨d, ?_, ite_throw_eq_ok.mpr ⟨?_, rfl⟩⟩
    · unfold parseRMCDate
      refine ite_throw_eq_ok.mpr ⟨not_not.mpr hsix, ?_⟩
      refine bind_eq_ok.mpr ⟨d.day, parseRange_ok_iff.mpr ⟨hd.dd, hd.day⟩, ?_⟩
      refine bind_eq_ok.mpr ⟨d.month, parseRange_ok_iff.mpr ⟨hd.mm, hd.month⟩, ?_⟩
      have hyears : 2000 ≤ d.year ∧ d.year ≤ 2099 := hd.year
      refine bind_eq_ok.mpr ⟨d.year - 2000, parseRange_ok_iff.mpr ⟨hd.yy, by omega⟩, ?_⟩
      dsimp only
      rw [hyear]
      exact ite_throw_eq_ok.mpr ⟨not_not.mpr hd.calendar, rfl⟩
    · rintro ⟨ha, hv⟩
      rcases hstatus with h | h
      · exact ha h
      · exact hv h

/-- The ZDA sentences. -/
theorem parseZDA_ok_iff :
    parseZDA fields = .ok s ↔ Complete .zda fields ∧ ∃ d c, Dated .zda fields d c ∧
      s = datedSentence .zda true d c := by
  unfold parseZDA
  dsimp only
  rw [ite_throw_eq_ok, not_lt]
  constructor
  · rintro ⟨hlen, h⟩
    obtain ⟨c, hc, h⟩ := bind_eq_ok.mp h
    obtain ⟨dd, hdd, h⟩ := bind_eq_ok.mp h
    obtain ⟨mm, hmm, h⟩ := bind_eq_ok.mp h
    obtain ⟨yy, hyy, h⟩ := bind_eq_ok.mp h
    obtain ⟨hcal, h⟩ := ite_throw_eq_ok.mp h
    obtain ⟨hdd, hday⟩ := parseRange_ok_iff.mp hdd
    obtain ⟨hmm, hmonth⟩ := parseRange_ok_iff.mp hmm
    obtain ⟨hyy, hyear⟩ := parseRange_ok_iff.mp hyy
    have hclock := parseTime_ok_iff.mp hc
    refine ⟨hlen, ⟨yy, mm, dd⟩, c, ?_, (Except.ok.inj h).symm⟩
    refine ⟨hclock, hdd, hmm, ?_, hday, hmonth, hyear, ?_⟩
    · exact hyy.trans (congrArg some (sub_zero _).symm)
    · rw [← dateOf_date _ (clock_inRange hclock)]
      exact not_not.mp hcal
  · rintro ⟨hlen, d, c, hd, rfl⟩
    refine ⟨hlen, bind_eq_ok.mpr ⟨c, parseTime_ok_iff.mpr hd.clock, ?_⟩⟩
    refine bind_eq_ok.mpr ⟨d.day, parseRange_ok_iff.mpr ⟨hd.dd, hd.day⟩, ?_⟩
    refine bind_eq_ok.mpr ⟨d.month, parseRange_ok_iff.mpr ⟨hd.mm, hd.month⟩, ?_⟩
    refine bind_eq_ok.mpr ⟨d.year, parseRange_ok_iff.mpr ⟨?_, hd.year⟩, ?_⟩
    · exact hd.yy.trans (congrArg some (sub_zero _))
    · refine ite_throw_eq_ok.mpr ⟨not_not.mpr ?_, rfl⟩
      rw [dateOf_date _ (clock_inRange hd.clock)]
      exact hd.calendar

/-- The lines that are read as a sentence. -/
theorem parseNMEA_ok_iff :
    parseNMEA line = .ok s ↔ ∃ fields kind, Framed line fields ∧
      (trimSpace line).length ≤ maxNMEALine ∧ Identified kind fields ∧
        parseKind kind fields = .ok s := by
  unfold parseNMEA
  rw [bind_eq_ok]
  constructor
  · rintro ⟨fields, hframe, h⟩
    obtain ⟨hframed, hlen⟩ := parseFrame_ok_iff.mp hframe
    dsimp only at h
    obtain ⟨hid, h⟩ := ite_throw_eq_ok.mp h
    obtain ⟨htalker, h⟩ := ite_throw_eq_ok.mp h
    obtain ⟨f, fs, rfl⟩ := List.exists_cons_of_ne_nil hframed.fields_ne
    rw [List.headD_cons] at htalker h
    have hident : ∀ kind : SentenceKind, f.drop 2 = kind.name → Identified kind (f :: fs) := by
      intro kind hkind
      refine ⟨f.take 2, not_not.mp htalker, ?_⟩
      rw [List.head?_cons, ← hkind, List.take_append_drop]
    split_ifs at h with hrmc hzda hgga
    · exact ⟨_, .rmc, hframed, hlen, hident .rmc hrmc, h⟩
    · exact ⟨_, .zda, hframed, hlen, hident .zda hzda, h⟩
    · exact ⟨_, .gga, hframed, hlen, hident .gga hgga, h⟩
  · rintro ⟨fields, kind, hframed, hlen, ⟨talker, htalker, hhead⟩, h⟩
    refine ⟨fields, parseFrame_ok_iff.mpr ⟨hframed, hlen⟩, ?_⟩
    obtain ⟨f, fs, rfl⟩ := List.exists_cons_of_ne_nil hframed.fields_ne
    obtain rfl : f = talker ++ kind.name := Option.some.inj hhead
    have htwo : talker.length = 2 := by
      have hall : ∀ talker ∈ talkers, talker.length = 2 := by decide
      exact hall talker htalker
    have hthree : kind.name.length = 3 := by cases kind <;> decide
    dsimp only
    rw [List.headD_cons, List.take_left' htwo, List.drop_left' htwo]
    refine ite_throw_eq_ok.mpr ⟨?_, ite_throw_eq_ok.mpr ⟨not_not.mpr htalker, ?_⟩⟩
    · rw [List.length_append, htwo, hthree]
      decide
    · cases kind with
      | rmc => exact h
      | zda =>
        rw [if_neg (by decide)]
        exact h
      | gga =>
        rw [if_neg (by decide), if_neg (by decide)]
        exact h

/-! ## The grammar -/

/-- **A well-formed line**: its frame and checksum, a talker that is read, all fields of
its kind, a time field and a date in decimal digits. -/
structure Written (line : Bytes) (kind : SentenceKind) (fields : List Bytes) (time : TimeText) :
    Prop where
  framed : Framed line fields
  identified : Identified kind fields
  complete : Complete kind fields
  time_at : fields.getD 1 [] = time.text
  time : time.WellFormed
  date : (dateText kind fields).Decimal

/-- The instant is the one that is written: no other has these fields. -/
def Names (kind : SentenceKind) (fields : List Bytes) (time : TimeText) (instant : ℤ) : Prop :=
  ∀ t, HasFields t ((dateText kind fields).date kind) time.time ↔ t = instant

/-- The line is well formed, and the sentence has the instant that it writes. -/
def Exact (line : Bytes) (s : Sentence) : Prop :=
  ∃ fields time, Written line s.kind fields time ∧ Names s.kind fields time s.timestamp

/-- What a sentence with a time was read from. -/
theorem parseNMEA_dated (h : parseNMEA line = .ok s) (hgga : s.kind ≠ .gga) :
    ∃ fields d c, Framed line fields ∧ Identified s.kind fields ∧
      Complete s.kind fields ∧ Dated s.kind fields d c ∧ s.timestamp = date d c := by
  obtain ⟨fields, kind, hframed, -, hid, h⟩ := parseNMEA_ok_iff.mp h
  cases kind with
  | rmc =>
    obtain ⟨hcomplete, d, c, hd, rfl⟩ := parseRMC_ok_iff.mp h
    exact ⟨fields, d, c, hframed, hid, hcomplete, hd, rfl⟩
  | zda =>
    obtain ⟨hcomplete, d, c, hd, rfl⟩ := parseZDA_ok_iff.mp h
    exact ⟨fields, d, c, hframed, hid, hcomplete, hd, rfl⟩
  | gga =>
    unfold parseKind parseGGA at h
    obtain ⟨-, h⟩ := ite_throw_eq_ok.mp h
    obtain ⟨quality, -, h⟩ := bind_eq_ok.mp h
    obtain ⟨satellites, -, h⟩ := bind_eq_ok.mp h
    rw [← Except.ok.inj h] at hgga
    exact absurd rfl hgga

/-- **An accepted line is exact when no part of its date has a sign.** -/
theorem exact_iff_unsigned (h : parseNMEA line = .ok s) (hgga : s.kind ≠ .gga) :
    Exact line s ↔ ∀ fields, Framed line fields → (dateText s.kind fields).Unsigned := by
  constructor
  · rintro ⟨fields, time, hw, -⟩ fields' hframed
    rw [hframed.unique hw.framed]
    exact hw.date.unsigned
  · intro hunsigned
    obtain ⟨fields, d, c, hframed, hid, hcomplete, hd, hstamp⟩ := parseNMEA_dated h hgga
    obtain ⟨hdecimal, hdate⟩ := hd.written (hunsigned fields hframed)
    obtain ⟨time, htext, htime, rfl, -⟩ := parseNMEAClock_ok_iff.mp hd.clock
    refine ⟨fields, time, ⟨hframed, hid, hcomplete, htext, htime, hdecimal⟩, fun t => ?_⟩
    rw [hdate, hstamp]
    exact hasFields_iff hd.calendar htime.inRange t

/-- **A well-formed line with a date of the calendar is read as it is written**, within
the length limit and with a fraction that fits, for the years that are read. -/
theorem parseNMEA_written
    {time : TimeText} (hgga : kind ≠ .gga) (hw : Written line kind fields time)
    (hlen : (trimSpace line).length ≤ maxNMEALine)
    (hvalid : ((dateText kind fields).date kind).Valid) (hfraction : time.fraction.length ≤ 18)
    (hyear : kind.years.1 ≤ ((dateText kind fields).date kind).year ∧
      ((dateText kind fields).date kind).year ≤ kind.years.2) :
    ∃ s, parseNMEA line = .ok s ∧ s.kind = kind ∧ Names kind fields time s.timestamp := by
  have hfits : decimal time.fraction < 2 ^ 63 :=
    calc decimal time.fraction < 10 ^ time.fraction.length := decimal_lt hw.time.fraction_digits
      _ ≤ 10 ^ 18 := Nat.pow_le_pow_right (by decide) hfraction
      _ < 2 ^ 63 := by decide
  have hclock : parseNMEAClock (fields.getD 1 []) = .ok time.time := by
    rw [hw.time_at]
    exact parseNMEAClock_ok_iff.mpr ⟨time, rfl, hw.time, rfl, hfits⟩
  have hd := Dated.of_decimal hclock hw.date hvalid hyear
  have hnames : Names kind fields time (date ((dateText kind fields).date kind) time.time) :=
    hasFields_iff hd.calendar hw.time.inRange
  cases kind with
  | gga => exact absurd rfl hgga
  | rmc =>
    exact ⟨_, parseNMEA_ok_iff.mpr ⟨fields, .rmc, hw.framed, hlen, hw.identified,
      parseRMC_ok_iff.mpr ⟨hw.complete, _, _, hd, rfl⟩⟩, rfl, hnames⟩
  | zda =>
    exact ⟨_, parseNMEA_ok_iff.mpr ⟨fields, .zda, hw.framed, hlen, hw.identified,
      parseZDA_ok_iff.mpr ⟨hw.complete, _, _, hd, rfl⟩⟩, rfl, hnames⟩

/-- Two digits write a year of the century. -/
theorem rmc_year (hcomplete : Complete .rmc fields) (hdate : (dateText .rmc fields).Decimal) :
    2000 ≤ ((dateText .rmc fields).date .rmc).year ∧
      ((dateText .rmc fields).date .rmc).year ≤ 2099 := by
  have hlt := decimal_lt hdate.yy.1
  have hlen : (dateText .rmc fields).yy.length = 2 := by
    show ((fields.getD 9 []).drop 4).length = 2
    rw [List.length_drop, hcomplete.2.1]
  rw [hlen] at hlt
  show 2000 ≤ (2000 : ℤ) + decimal (dateText .rmc fields).yy ∧
    (2000 : ℤ) + decimal (dateText .rmc fields).yy ≤ 2099
  omega

/-- **The grammar of NMEA time.**  An `RMC` or `ZDA` line that is accepted is well formed
and gives the one instant that it writes, with a second below 60, exactly when no part of
its date begins with a sign.  Conversely a well-formed line within the length limit, with a
date of the calendar and a fraction of at most 18 digits, is read as the instant that it
writes, exactly when a `ZDA` year is from 2000 on and has four digits. -/
theorem parseNMEA_grammar (line : Bytes) :
    (∀ s, parseNMEA line = .ok s → s.kind ≠ .gga →
      (Exact line s ↔ ∀ fields, Framed line fields → (dateText s.kind fields).Unsigned)) ∧
    (∀ kind fields time, kind ≠ .gga → Written line kind fields time →
      (trimSpace line).length ≤ maxNMEALine → ((dateText kind fields).date kind).Valid →
      time.fraction.length ≤ 18 →
      ((∃ s, parseNMEA line = .ok s ∧ s.kind = kind ∧ Names kind fields time s.timestamp) ↔
        (kind = .zda → 2000 ≤ ((dateText kind fields).date kind).year ∧
          ((dateText kind fields).date kind).year ≤ 9999))) := by
  refine ⟨fun s h hgga => exact_iff_unsigned h hgga, ?_⟩
  intro kind fields time hgga hw hlen hvalid hfraction
  constructor
  · rintro ⟨s, h, hkind, -⟩ rfl
    obtain ⟨fields', d, c, hframed, -, -, hd, -⟩ := parseNMEA_dated h (by rw [hkind]; decide)
    rw [hkind, hframed.unique hw.framed] at hd
    obtain ⟨-, hdate⟩ := hd.written hw.date.unsigned
    rw [hdate]
    exact hd.year
  · intro hyear
    refine parseNMEA_written hgga hw hlen hvalid hfraction ?_
    cases kind with
    | gga => exact absurd rfl hgga
    | rmc => exact rmc_year hw.complete hw.date
    | zda => exact hyear rfl

/-- A line whose day has a sign, with the right checksum. -/
def signedLine : Bytes := ascii "$GPRMC,123519,A,,,,,,,+10826,,,*11"

/-- **A sign in the date is accepted**: the day `+1` is read as the first of August 2026,
though the line is not well formed. -/
theorem parseNMEA_signed_day :
    parseNMEA signedLine = .ok (datedSentence .rmc true ⟨2026, 8, 1⟩ ⟨12, 35, 19, 0⟩) ∧
    ¬Exact signedLine (datedSentence .rmc true ⟨2026, 8, 1⟩ ⟨12, 35, 19, 0⟩) := by
  have hframe : parseFrame signedLine =
      .ok (["GPRMC", "123519", "A", "", "", "", "", "", "", "+10826", "", "", ""].map ascii) := by
    decide +kernel
  refine ⟨by decide +kernel, ?_⟩
  rintro ⟨fields, time, hw, -⟩
  have hdate := hw.date
  rw [← (parseFrame_ok_iff.mp hframe).1.unique hw.framed] at hdate
  exact absurd hdate.dd.1 (by decide)

end Carillon.Refclock
