/-
# Token buckets

Two token buckets with one rate and one depth see the same packets; one of them may be
filled up at any time.  The packets admitted by that one are at least as many, but not
packet by packet: after it was filled up it may grant a packet early and then refuse
one that the other admits.  What holds along the way is `Ahead`: it has admitted no
fewer, and tokens and admitted packets together are no fewer either.

What one bucket admits in a window of time is bounded by its depth and what flows in
meanwhile.  `Account` keeps the books of a window; a bucket that is filled up keeps them
if as much would have flowed in (`Account.fill`).  A bucket may also be kept as the time at
which it will be full again, its virtual finish time, and `Booked` keeps the books of that; the
packets of a window then need not come in the order of their times.

A bucket that is kept with rounded arithmetic still holds no less than nothing and no more than
its depth (`Within`).
-/
import Mathlib.Tactic

namespace Tokens

variable {K : Type*} [Field K] [LinearOrder K] [IsStrictOrderedRing K]

/-- The first bucket, with `t` tokens and `n` packets admitted, is ahead of the second. -/
structure Ahead (t u : K) (n m : ℕ) : Prop where
  admitted : m ≤ n
  sum : u + m ≤ t + n

/-- A full bucket is ahead of any that has admitted no more. -/
theorem ahead_full {depth u : K} {n m : ℕ} (hu : u ≤ depth) (h : m ≤ n) : Ahead depth u n m := by
  have hcast : (m : K) ≤ n := Nat.cast_le.mpr h
  exact ⟨h, add_le_add hu hcast⟩

/-- Both are refilled by the same amount, up to the depth. -/
theorem Ahead.refill {t u : K} {n m : ℕ} (h : Ahead t u n m) (depth gain : K) :
    Ahead (min depth (t + gain)) (min depth (u + gain)) n m := by
  have hcast : (m : K) ≤ n := Nat.cast_le.mpr h.admitted
  have hsum := h.sum
  refine ⟨h.admitted, ?_⟩
  rcases min_cases depth (t + gain) with ⟨ht, -⟩ | ⟨ht, -⟩
  · rw [ht]
    have hu := min_le_left depth (u + gain)
    linarith
  · rw [ht]
    have hu := min_le_right depth (u + gain)
    linarith

/-- What a packet leaves in a bucket: a token less, if there was one. -/
def spend (t : K) : K :=
  if 1 ≤ t then t - 1 else t

/-- Whether the packet is admitted, as a count. -/
def grant (t : K) : ℕ :=
  if 1 ≤ t then 1 else 0

/-- **A packet.**  If only the second bucket admits it, the first had admitted more
before. -/
theorem Ahead.packet {t u : K} {n m : ℕ} (h : Ahead t u n m) :
    Ahead (spend t) (spend u) (n + grant t) (m + grant u) := by
  have hadmitted := h.admitted
  have hsum := h.sum
  unfold spend grant
  by_cases ht : 1 ≤ t
  · rw [if_pos ht, if_pos ht]
    by_cases hu : 1 ≤ u
    · rw [if_pos hu, if_pos hu]
      refine ⟨by omega, ?_⟩
      push_cast
      linarith
    · rw [if_neg hu, if_neg hu]
      refine ⟨by omega, ?_⟩
      push_cast
      linarith
  · rw [if_neg ht, if_neg ht]
    by_cases hu : 1 ≤ u
    · rw [if_pos hu, if_pos hu]
      have hlt : (m : K) < n := by linarith [not_le.mp ht]
      have hlt' : m < n := Nat.cast_lt.mp hlt
      refine ⟨by omega, ?_⟩
      push_cast
      linarith
    · rw [if_neg hu, if_neg hu]
      exact h

/-! ## What a bucket admits in a window -/

/-- The books of a bucket with `t` tokens at a time, which has admitted `n` packets since the
start of the window: what it has admitted and still holds has been in it at the start or has
flowed in since. -/
structure Account (rate depth start time t : K) (n : ℕ) : Prop where
  nonneg : 0 ≤ t
  le_depth : t ≤ depth
  before : time < start → n = 0
  since : start ≤ time → n + t ≤ depth + rate * (time - start)

section

variable {rate depth start time time' stop t gain : K} {n : ℕ}

theorem account_full (hrate : 0 ≤ rate) (hdepth : 0 ≤ depth) :
    Account rate depth start time depth 0 := by
  refine ⟨hdepth, le_refl depth, fun _ => rfl, fun h => ?_⟩
  have hflow : 0 ≤ rate * (time - start) := mul_nonneg hrate (sub_nonneg.mpr h)
  rw [Nat.cast_zero]
  linarith

/-- A refill by what has flowed in at most. -/
theorem Account.refill (h : Account rate depth start time t n) (hrate : 0 ≤ rate)
    (htime : time ≤ time') (hgain : 0 ≤ gain) (hflow : gain ≤ rate * (time' - time)) :
    Account rate depth start time' (min depth (t + gain)) n := by
  have hdepth : min depth (t + gain) ≤ depth := min_le_left _ _
  refine ⟨le_min (h.nonneg.trans h.le_depth) (add_nonneg h.nonneg hgain), hdepth,
    fun hbefore => h.before (htime.trans_lt hbefore), fun hstart => ?_⟩
  rcases lt_or_ge time start with hbefore | hsince
  · -- nothing was counted before the start
    have hin : 0 ≤ rate * (time' - start) := mul_nonneg hrate (sub_nonneg.mpr hstart)
    rw [h.before hbefore, Nat.cast_zero]
    linarith
  · have hsum := h.since hsince
    have hmin : min depth (t + gain) ≤ t + gain := min_le_right _ _
    calc n + min depth (t + gain) ≤ n + t + gain := by linarith
      _ ≤ depth + rate * (time - start) + rate * (time' - time) := add_le_add hsum hflow
      _ = depth + rate * (time' - start) := by ring

/-- Time passes. -/
theorem Account.later (h : Account rate depth start time t n) (hrate : 0 ≤ rate)
    (htime : time ≤ time') : Account rate depth start time' t n := by
  have hkeep := h.refill hrate htime (le_refl 0) (mul_nonneg hrate (sub_nonneg.mpr htime))
  rwa [add_zero, min_eq_right h.le_depth] at hkeep

/-- A bucket may be filled up when its depth would have flowed in. -/
theorem Account.fill (h : Account rate depth start time t n) (hrate : 0 ≤ rate)
    (htime : time ≤ time') (hflow : depth ≤ rate * (time' - time)) :
    Account rate depth start time' depth n := by
  have hfull := h.refill hrate htime (h.nonneg.trans h.le_depth) hflow
  rwa [min_eq_left (le_add_of_nonneg_left h.nonneg)] at hfull

/-- A packet is counted from the start of the window on. -/
theorem Account.packet (h : Account rate depth start time t n) :
    Account rate depth start time (spend t) (n + if start ≤ time then grant t else 0) := by
  have hnonneg := h.nonneg
  have hdepth := h.le_depth
  have hspend : 0 ≤ spend t ∧ spend t ≤ t := by
    unfold spend
    split
    · constructor <;> linarith
    · exact ⟨hnonneg, le_refl t⟩
  refine ⟨hspend.1, hspend.2.trans hdepth, fun hbefore => ?_, fun hstart => ?_⟩
  · rw [if_neg (not_le.mpr hbefore), Nat.add_zero]
    exact h.before hbefore
  · have hsum := h.since hstart
    have hsame : (grant t : K) + spend t = t := by
      unfold grant spend
      split <;> simp
    rw [if_pos hstart]
    push_cast
    linarith

/-- What is admitted in the window. -/
theorem Account.admitted_le (h : Account rate depth start time t n) (hrate : 0 ≤ rate)
    (hstart : start ≤ stop) (hstop : time ≤ stop) : n ≤ depth + rate * (stop - start) := by
  have hsum := (h.later hrate hstop).since hstart
  have hnonneg := h.nonneg
  linarith

end

/-! ## Virtual finish times -/

section

variable {R : Type*} [CommRing R] [LinearOrder R] [IsStrictOrderedRing R]

/-- The packets admitted with a time in the window have each moved the finish time on by an
interval, and the last of them was not too far behind it. -/
structure Booked (interval burst start stop finish : R) (n : ℕ) : Prop where
  behind : 0 < n → start + n * interval ≤ finish
  bound : 0 < n → n * interval ≤ burst * interval + (stop - start)

variable {interval burst start stop finish finish' now : R} {n : ℕ}

omit [IsStrictOrderedRing R] in
theorem booked_zero : Booked interval burst start stop finish 0 :=
  ⟨fun h => absurd h (lt_irrefl 0), fun h => absurd h (lt_irrefl 0)⟩

omit [IsStrictOrderedRing R] in
theorem Booked.later (h : Booked interval burst start stop finish n) (hle : finish ≤ finish') :
    Booked interval burst start stop finish' n :=
  ⟨fun hn => (h.behind hn).trans hle, h.bound⟩

/-- A packet of the window is admitted. -/
theorem Booked.admit (h : Booked interval burst start stop finish n) (hstart : start ≤ now)
    (hstop : now ≤ stop) (hburst : max finish now + interval - now ≤ burst * interval) :
    Booked interval burst start stop (max finish now + interval) (n + 1) := by
  have hbehind : start + ((n + 1 : ℕ) : R) * interval ≤ max finish now + interval := by
    have hprev : start + n * interval ≤ max finish now := by
      rcases Nat.eq_zero_or_pos n with rfl | hn
      · rw [Nat.cast_zero, zero_mul, add_zero]
        exact hstart.trans (le_max_right _ _)
      · exact (h.behind hn).trans (le_max_left _ _)
    push_cast
    linarith
  exact ⟨fun _ => hbehind, fun _ => by linarith⟩

end

/-! ## Rounded arithmetic -/

/-- A rounding to the numbers that an arithmetic has: it keeps the order, these numbers and
zero. -/
structure Rounding (K : Type*) [Field K] [LinearOrder K] [IsStrictOrderedRing K] where
  fl : K → K
  mono : Monotone fl
  idem : ∀ x, fl (fl x) = fl x
  zero : fl 0 = 0

/-- No rounding. -/
def Rounding.exact : Rounding K := ⟨id, monotone_id, fun _ => rfl, rfl⟩

/-- A bucket holds a number of the arithmetic, from nothing to its depth. -/
structure Within (R : Rounding K) (depth t : K) : Prop where
  nonneg : 0 ≤ t
  le_depth : t ≤ depth
  fl_eq : R.fl t = t

section

variable {R : Rounding K} {depth t x : K}

theorem Rounding.nonneg (R : Rounding K) (h : 0 ≤ x) : 0 ≤ R.fl x := by
  have hmono := R.mono h
  rwa [R.zero] at hmono

theorem within_full (h : 0 ≤ depth) (hfl : R.fl depth = depth) : Within R depth depth :=
  ⟨h, le_refl depth, hfl⟩

/-- A refill that does not take away. -/
theorem Within.refill (h : Within R depth t) (hfl : R.fl depth = depth) (hx : 0 ≤ x) :
    Within R depth (min depth (R.fl (t + x))) := by
  have hdepth : 0 ≤ depth := h.nonneg.trans h.le_depth
  refine ⟨le_min hdepth (R.nonneg (add_nonneg h.nonneg hx)), min_le_left _ _, ?_⟩
  rcases min_choice depth (R.fl (t + x)) with hmin | hmin
  · rw [hmin, hfl]
  · rw [hmin, R.idem]

/-- A token less. -/
theorem Within.sub_one (h : Within R depth t) (ht : 1 ≤ t) : Within R depth (R.fl (t - 1)) := by
  refine ⟨R.nonneg (sub_nonneg.mpr ht), ?_, R.idem _⟩
  calc R.fl (t - 1) ≤ R.fl t := R.mono (sub_le_self t zero_le_one)
    _ = t := h.fl_eq
    _ ≤ depth := h.le_depth

end

end Tokens
