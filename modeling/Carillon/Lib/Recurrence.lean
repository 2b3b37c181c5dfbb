/-
# Linear recurrences with a bounded disturbance

A sequence that follows a stable linear recurrence up to an error of at most `e` comes
within a multiple of `e` of zero and stays there, and the multiple depends on the
recurrence only.

* `eventually_norm_le`: first order, over a normed field;
* `norm_lt_one_of_root`: the roots of `z² - t z + d` are inside the unit circle when
  `|d| < 1` and `|t| < 1 + d`;
* `exists_eventually_abs_le`: second order, by the factors of its polynomial over `ℂ`.
-/
import Carillon.Lib.Numerals
import Mathlib.Analysis.Complex.Polynomial.Basic
import Mathlib.Analysis.SpecificLimits.Normed

namespace Recurrence

open Filter Topology

/-- A first-order recurrence forgets where it began. -/
theorem norm_le_of_step {F : Type*} [NormedField F] {r : F} (hr : ‖r‖ < 1) {z : ℕ → F} {e : ℝ}
    (he : 0 ≤ e) {k₀ : ℕ} (h : ∀ k ≥ k₀, ‖z (k + 1) - r * z k‖ ≤ e) (n : ℕ) :
    ‖z (k₀ + n)‖ ≤ ‖r‖ ^ n * ‖z k₀‖ + e / (1 - ‖r‖) := by
  have hpos : 0 < 1 - ‖r‖ := sub_pos.mpr hr
  induction n with
  | zero =>
    rw [Nat.add_zero, pow_zero, one_mul]
    exact le_add_of_nonneg_right (div_nonneg he hpos.le)
  | succ n ih =>
    have hstep := h (k₀ + n) (Nat.le_add_right _ _)
    calc ‖z (k₀ + (n + 1))‖
        = ‖(z (k₀ + n + 1) - r * z (k₀ + n)) + r * z (k₀ + n)‖ := by rw [sub_add_cancel, add_assoc]
      _ ≤ e + ‖r‖ * ‖z (k₀ + n)‖ := (norm_add_le _ _).trans (by rw [norm_mul]; gcongr)
      _ ≤ e + ‖r‖ * (‖r‖ ^ n * ‖z k₀‖ + e / (1 - ‖r‖)) := by gcongr
      _ = ‖r‖ ^ (n + 1) * ‖z k₀‖ + e / (1 - ‖r‖) := by field_simp; ring

/-- **First order.**  The sequence ends up within twice the fixed point of the bound. -/
theorem eventually_norm_le {F : Type*} [NormedField F] {r : F} (hr : ‖r‖ < 1) {z : ℕ → F} {e : ℝ}
    (he : 0 < e) (h : ∀ᶠ k in atTop, ‖z (k + 1) - r * z k‖ ≤ e) :
    ∀ᶠ k in atTop, ‖z k‖ ≤ 2 * (e / (1 - ‖r‖)) := by
  obtain ⟨k₀, hk₀⟩ := eventually_atTop.mp h
  have hbound : 0 < e / (1 - ‖r‖) := div_pos he (sub_pos.mpr hr)
  have hdecay : Tendsto (fun n => ‖r‖ ^ n * ‖z k₀‖) atTop (𝓝 0) := by
    simpa using (tendsto_pow_atTop_nhds_zero_of_lt_one (norm_nonneg r) hr).mul_const ‖z k₀‖
  obtain ⟨n₀, hn₀⟩ := eventually_atTop.mp (hdecay.eventually (gt_mem_nhds hbound))
  refine eventually_atTop.mpr ⟨k₀ + n₀, fun k hk => ?_⟩
  obtain ⟨n, rfl⟩ := Nat.exists_eq_add_of_le ((Nat.le_add_right k₀ n₀).trans hk)
  have hfar := hn₀ n (by omega)
  have hnear := norm_le_of_step hr he.le hk₀ n
  linarith

/-- **The unit circle.**  The conditions on the coefficients say that the polynomial is
positive at `1` and `-1` and that its roots have a product inside the circle. -/
theorem norm_lt_one_of_root {t d : ℝ} (hd : |d| < 1) (ht : |t| < 1 + d) {z : ℂ}
    (hz : z ^ 2 - t * z + d = 0) : ‖z‖ < 1 := by
  obtain ⟨-, hd⟩ := abs_lt.mp hd
  obtain ⟨htl, htr⟩ := abs_lt.mp ht
  have hre : z.re * z.re - z.im * z.im - t * z.re + d = 0 := by
    simpa [pow_two] using congrArg Complex.re hz
  have him : z.re * z.im + z.im * z.re - t * z.im = 0 := by
    simpa [pow_two] using congrArg Complex.im hz
  by_cases hreal : z.im = 0
  · -- a real root: outside the interval the polynomial has the wrong sign at an end
    have hnorm : ‖z‖ = |z.re| := (Complex.abs_re_eq_norm.mpr hreal).symm
    rw [hreal] at hre
    rw [hnorm, abs_lt]
    constructor
    · by_contra hle
      push Not at hle
      have hfactor : z.re * (1 + d + t) = (1 + z.re) * (z.re + d) := by linarith
      nlinarith [mul_nonneg_of_nonpos_of_nonpos (show 1 + z.re ≤ 0 by linarith)
        (show z.re + d ≤ 0 by linarith), mul_pos_of_neg_of_neg (show z.re < 0 by linarith)
        (show -(1 + d + t) < 0 by linarith)]
    · by_contra hle
      push Not at hle
      have hfactor : z.re * (1 + d - t) = (1 - z.re) * (z.re - d) := by linarith
      nlinarith [mul_nonneg (show 0 ≤ z.re - 1 by linarith) (show 0 ≤ z.re - d by linarith),
        mul_pos (show 0 < z.re by linarith) (show 0 < 1 + d - t by linarith)]
  · -- a pair of conjugate roots: the product is the square of their absolute value
    have htwice : t = 2 * z.re := by
      have : z.im * (2 * z.re - t) = 0 := by linarith
      rcases mul_eq_zero.mp this with h | h
      · exact absurd h hreal
      · linarith
    have hsq : ‖z‖ ^ 2 = d := by
      rw [← Complex.normSq_eq_norm_sq, Complex.normSq_apply]
      rw [htwice] at hre
      linarith
    nlinarith [norm_nonneg z]

/-- A quadratic polynomial has its two roots in `ℂ`. -/
theorem exists_sum_prod (t d : ℂ) : ∃ r₁ r₂ : ℂ, r₁ + r₂ = t ∧ r₁ * r₂ = d := by
  obtain ⟨s, hs⟩ := IsAlgClosed.exists_pow_nat_eq (t ^ 2 - 4 * d) two_pos
  refine ⟨(t + s) / 2, (t - s) / 2, by ring, ?_⟩
  linear_combination (-1 / 4 : ℂ) * hs

/-- **Second order.**  The recurrence factors into two of the first order. -/
theorem exists_eventually_abs_le {t d : ℝ} (hd : |d| < 1) (ht : |t| < 1 + d) :
    ∃ C : ℝ, 0 ≤ C ∧ ∀ (x : ℕ → ℝ) (e : ℝ), 0 < e →
      (∀ᶠ k in atTop, |x (k + 2) - t * x (k + 1) + d * x k| ≤ e) →
      ∀ᶠ k in atTop, |x k| ≤ C * e := by
  obtain ⟨r₁, r₂, hsum, hprod⟩ := exists_sum_prod t d
  have hroot₁ : ‖r₁‖ < 1 := norm_lt_one_of_root hd ht (by linear_combination r₁ * hsum - hprod)
  have hroot₂ : ‖r₂‖ < 1 := norm_lt_one_of_root hd ht (by linear_combination r₂ * hsum - hprod)
  have hpos₁ : 0 < 1 - ‖r₁‖ := sub_pos.mpr hroot₁
  have hpos₂ : 0 < 1 - ‖r₂‖ := sub_pos.mpr hroot₂
  refine ⟨2 * (2 * (1 / (1 - ‖r₁‖)) / (1 - ‖r₂‖)), by positivity, fun x e he h => ?_⟩
  -- what one factor leaves follows the other factor up to the disturbance
  have hinner : ∀ᶠ k in atTop,
      ‖((x (k + 1) : ℂ) - r₂ * x k)‖ ≤ 2 * (e / (1 - ‖r₁‖)) := by
    refine eventually_norm_le (z := fun k => (x (k + 1) : ℂ) - r₂ * x k) hroot₁ he ?_
    filter_upwards [h] with k hk
    have hfactor : ((x (k + 1 + 1) : ℂ) - r₂ * x (k + 1)) - r₁ * (x (k + 1) - r₂ * x k)
        = ((x (k + 2) - t * x (k + 1) + d * x k : ℝ) : ℂ) := by
      push_cast
      linear_combination (-(x (k + 1) : ℂ)) * hsum + (x k : ℂ) * hprod
    rw [hfactor, Complex.norm_real]
    exact hk
  filter_upwards [eventually_norm_le (z := fun k => (x k : ℂ)) hroot₂ (by positivity) hinner]
    with k hk
  rw [Complex.norm_real, Real.norm_eq_abs] at hk
  calc |x k| ≤ 2 * (2 * (e / (1 - ‖r₁‖)) / (1 - ‖r₂‖)) := hk
    _ = 2 * (2 * (1 / (1 - ‖r₁‖)) / (1 - ‖r₂‖)) * e := by ring

end Recurrence
