/-
# Piecewise constant rates

A quantity that moves at a constant rate, which is changed from time to time, is
given by the list of its changes, newest first: from `at_` on it moves at `rate`,
and before that at the rates of the older changes.  Before the first change it
rests.

`integral l a b` is the amount moved between `a` and `b`.  It needs nothing but
the four operations and an order, so it stands for rational time as well, and it is
additive for any three times, in any order.
-/
import Mathlib.Tactic

namespace Rates

/-- From `at_` on, the quantity moves at `rate`. -/
structure Change (K : Type*) where
  at_ : K
  rate : K
  deriving DecidableEq

variable {K : Type*} [Field K] [LinearOrder K]

/-- The amount moved between `a` and `b`: the part of the interval after the newest
change at its rate, and the part before it at the older ones. -/
def integral : List (Change K) → K → K → K
  | [], _, _ => 0
  | c :: older, a, b =>
    c.rate * (max b c.at_ - max a c.at_) + integral older (min a c.at_) (min b c.at_)

@[simp] theorem integral_nil (a b : K) : integral [] a b = 0 := rfl

/-- Adjacent intervals add up. -/
theorem integral_add (l : List (Change K)) (a b c : K) :
    integral l a b + integral l b c = integral l a c := by
  induction l generalizing a b c with
  | nil => simp
  | cons d l ih =>
    unfold integral
    rw [← ih (min a d.at_) (min b d.at_) (min c d.at_)]
    ring

@[simp] theorem integral_self (l : List (Change K)) (a : K) : integral l a a = 0 := by
  have h := integral_add l a a a
  simpa using h

/-- The interval, backwards. -/
theorem integral_swap (l : List (Change K)) (a b : K) : integral l b a = -integral l a b := by
  have h := integral_add l a b a
  rw [integral_self] at h
  exact eq_neg_of_add_eq_zero_right h

/-- A change does not reach back. -/
theorem integral_before {c : Change K} (l : List (Change K)) {a b : K} (ha : a ≤ c.at_)
    (hb : b ≤ c.at_) : integral (c :: l) a b = integral l a b := by
  rw [integral, max_eq_right ha, max_eq_right hb, min_eq_left ha, min_eq_left hb]
  ring

/-- After the newest change the rate is constant. -/
theorem integral_after {c : Change K} (l : List (Change K)) {a b : K} (ha : c.at_ ≤ a)
    (hb : c.at_ ≤ b) : integral (c :: l) a b = c.rate * (b - a) := by
  rw [integral, max_eq_left ha, max_eq_left hb, min_eq_right ha, min_eq_right hb, integral_self,
    add_zero]

example : integral [⟨3, -1⟩, ⟨1, 2⟩] (0 : ℚ) 5 = 2 := by decide +kernel

end Rates
