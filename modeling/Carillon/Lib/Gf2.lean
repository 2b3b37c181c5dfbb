/-
# Words as polynomials over GF(2)

Bit `i` of a word is the coefficient of `X ^ i`.  Exclusive or is then the sum, and a
shift by one place is the product with `X`, up to the bit that it drops.

`double r` is the shift with feedback: the word `r` is added when a bit is dropped.  It is
multiplication by `X` modulo `X ^ w + poly r`, the step by which a binary field with
that modulus is computed in words of `w` bits.
-/
import Mathlib.Algebra.CharP.Two
import Mathlib.Algebra.Field.ZMod
import Mathlib.Algebra.Polynomial.Div
import Mathlib.Data.ZMod.Basic
import Mathlib.Tactic.Ring

namespace Gf2

open Polynomial

variable {w : ℕ}

/-- The word as a polynomial. -/
noncomputable def poly (x : BitVec w) : (ZMod 2)[X] :=
  ∑ i ∈ Finset.range w, if x.getLsbD i then X ^ i else 0

/-- The coefficient of a bit. -/
theorem coeff_poly (x : BitVec w) (n : ℕ) :
    (poly x).coeff n = if x.getLsbD n then 1 else 0 := by
  have hterm : ∀ i, (if x.getLsbD i then X ^ i else (0 : (ZMod 2)[X])).coeff n =
      if n = i then (if x.getLsbD n then 1 else 0) else 0 := by
    intro i
    split_ifs <;> simp_all [coeff_X_pow]
  rw [poly, finsetSum_coeff, Finset.sum_congr rfl fun i _ => hterm i, Finset.sum_ite_eq]
  by_cases hn : n < w
  · rw [if_pos (Finset.mem_range.mpr hn)]
  · rw [if_neg (Finset.mem_range.not.mpr hn), BitVec.getLsbD_of_ge x n (not_lt.mp hn)]
    rfl

/-- Exclusive or is addition. -/
theorem poly_xor (x y : BitVec w) : poly (x ^^^ y) = poly x + poly y := by
  ext n
  rw [coeff_add, coeff_poly, coeff_poly, coeff_poly, BitVec.getLsbD_xor]
  cases x.getLsbD n <;> cases y.getLsbD n <;> decide

/-- A single bit is a power. -/
theorem poly_twoPow {i : ℕ} (hi : i < w) : poly (BitVec.twoPow w i) = X ^ i := by
  ext n
  rw [coeff_poly, coeff_X_pow, BitVec.getLsbD_twoPow]
  simp [hi, eq_comm]

/-- The degree is below the width. -/
theorem degree_poly_lt (x : BitVec w) : (poly x).degree < w := by
  rw [degree_lt_iff_coeff_zero]
  intro n hn
  rw [coeff_poly, BitVec.getLsbD_of_ge x n hn]
  rfl

/-- A shift is the product with `X`, without the bit that leaves the word. -/
theorem X_mul_poly (x : BitVec w) :
    X * poly x = poly (x <<< 1) + if x.msb then X ^ w else 0 := by
  ext n
  rw [coeff_add, coeff_poly, BitVec.getLsbD_shiftLeft]
  have hdropped : (if x.msb then X ^ w else (0 : (ZMod 2)[X])).coeff n =
      if n = w ∧ x.msb then 1 else 0 := by
    split_ifs <;> simp_all [coeff_X_pow]
  rw [hdropped, BitVec.msb_eq_getLsbD_last]
  cases n with
  | zero =>
      rw [coeff_X_mul_zero]
      cases w <;> simp
  | succ n =>
      rw [coeff_X_mul, coeff_poly]
      -- the bit stays in the word, is the one that leaves it, or was not in it
      obtain hin | hout | hbeyond := Nat.lt_trichotomy (n + 1) w
      · simp [hin, hin.ne]
      · subst hout
        simp
      · simp [BitVec.getLsbD_of_ge x n (by omega), hbeyond.ne', hbeyond.not_gt]

/-- The shift with feedback. -/
def double (r x : BitVec w) : BitVec w :=
  if x.msb then (x <<< 1) ^^^ r else x <<< 1

/-- The modulus that the feedback stands for. -/
noncomputable def modulus (r : BitVec w) : (ZMod 2)[X] := X ^ w + poly r

theorem modulus_monic (r : BitVec w) : (modulus r).Monic :=
  monic_X_pow_add (degree_poly_lt r)

theorem degree_modulus (r : BitVec w) : (modulus r).degree = w :=
  (degree_add_eq_left_of_degree_lt (by rw [degree_X_pow]; exact degree_poly_lt r)).trans
    (degree_X_pow w)

/-- **The shift with feedback is multiplication by `X` modulo its polynomial.** -/
theorem poly_double (r x : BitVec w) : poly (double r x) = (X * poly x) %ₘ modulus r := by
  have hdeg : (poly (double r x)).degree < (modulus r).degree := by
    rw [degree_modulus]
    exact degree_poly_lt _
  refine ((div_modByMonic_unique (if x.msb then 1 else 0) _ (modulus_monic r)
    ⟨?_, hdeg⟩).2).symm
  rw [X_mul_poly]
  unfold double
  by_cases hmsb : x.msb
  · rw [if_pos hmsb, if_pos hmsb, if_pos hmsb, poly_xor, modulus, mul_one]
    have hcancel : poly r + poly r = 0 := CharTwo.add_self_eq_zero _
    calc poly (x <<< 1) + poly r + (X ^ w + poly r)
        = poly (x <<< 1) + X ^ w + (poly r + poly r) := by ring
      _ = poly (x <<< 1) + X ^ w := by rw [hcancel, add_zero]
  · rw [if_neg hmsb, if_neg hmsb, if_neg hmsb, mul_zero]

end Gf2
