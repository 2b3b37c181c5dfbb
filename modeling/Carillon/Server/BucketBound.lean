/-
# What one bucket admits

In a window of time a bucket admits no more packets than its burst and what flows in
meanwhile.  But a bucket that has been idle for `clientIdleExpiry` is forgotten, by whichever
packet comes next, and a client that returns starts with the whole burst.  So the rate that
counts is the larger one of the rate of the bucket and one burst in each `clientIdleExpiry`.
-/
import Carillon.Lib.Runs
import Carillon.Server.Safety

namespace Carillon.Server

open Tokens (Account)

/-- A time in seconds. -/
def inSeconds (t : ℤ) : ℚ := t / 1000000000

/-- The rate at which tokens flow in or may be restored by expiry. -/
def RateLimiter.sustained (l : RateLimiter) : ℚ := max l.rate (l.burst / inSeconds clientIdleExpiry)

def RateLimiter.step (l : RateLimiter) (call : BucketKey × ℤ) : Option RateLimiter :=
  some (l.allow call.1 call.2).1

/-- A call does not meet a full table. -/
def RateLimiter.HasRoom (l : RateLimiter) (call : BucketKey × ℤ) : Prop :=
  (l.expire call.2).size < l.maxClients

instance (l : RateLimiter) (call : BucketKey × ℤ) : Decidable (l.HasRoom call) :=
  inferInstanceAs (Decidable (_ < _))

/-- The calls on a key that are allowed from one time to another. -/
def RateLimiter.allowed (l : RateLimiter) (k : BucketKey) (start stop : ℤ) :
    List (BucketKey × ℤ) → ℕ
  | [] => 0
  | call :: calls =>
    (if call.1 = k ∧ start ≤ call.2 ∧ call.2 ≤ stop ∧ (l.allow call.1 call.2).2.1 then 1 else 0) +
      (l.allow call.1 call.2).1.allowed k start stop calls

/-! ## The books of one bucket -/

/-- The books of a window are kept for a key: by its bucket, and by a full one while there is
none. -/
structure RateLimiter.Books (l : RateLimiter) (k : BucketKey) (start now : ℤ) (n : ℕ) : Prop where
  ordered : l.Ordered now
  rate : 0 ≤ l.rate
  burst : 0 ≤ l.burst
  bucket : ∀ b, l.bucket k = some b → b.updated = b.lastSeen ∧
    Account l.sustained l.burst (inSeconds start) (inSeconds b.updated) b.tokens n
  absent : l.bucket k = none →
    Account l.sustained l.burst (inSeconds start) (inSeconds now) l.burst n

variable {l : RateLimiter} {k : BucketKey} {start now now' : ℤ} {n : ℕ}

theorem inSeconds_le {t u : ℤ} : inSeconds t ≤ inSeconds u ↔ t ≤ u := by
  unfold inSeconds
  rw [div_le_div_iff_of_pos_right (by norm_num), Int.cast_le]

theorem RateLimiter.Books.sustained_nonneg (h : l.Books k start now n) : 0 ≤ l.sustained :=
  le_max_of_le_left h.rate

theorem inSeconds_clientIdleExpiry : inSeconds clientIdleExpiry = 60 := by
  norm_num [inSeconds, clientIdleExpiry, second]

/-- An idle bucket would be full. -/
theorem burst_le_of_idle {b : ClientBucket} (hburst : 0 ≤ l.burst) (hseen : b.lastSeen ≤ now)
    (hidle : b.idle now = true) :
    l.burst ≤ l.sustained * (inSeconds now - inSeconds b.lastSeen) := by
  have hexpiry := inSeconds_clientIdleExpiry
  have hgap : (60 : ℚ) ≤ inSeconds now - inSeconds b.lastSeen := by
    have hlt : ((clientIdleExpiry : ℤ) : ℚ) ≤ ((now - b.lastSeen : ℤ) : ℚ) :=
      Int.cast_le.mpr ((idle_iff hseen).mp hidle).le
    rw [← hexpiry, inSeconds, inSeconds, inSeconds, ← sub_div, ← Int.cast_sub]
    exact div_le_div_of_nonneg_right hlt (by norm_num)
  have hrate : l.burst / 60 ≤ l.sustained := by
    rw [← hexpiry]
    exact le_max_right _ _
  calc l.burst = l.burst / 60 * 60 := by ring
    _ ≤ l.sustained * (inSeconds now - inSeconds b.lastSeen) :=
      mul_le_mul hrate hgap (by norm_num) (le_trans (by positivity) hrate)

/-- The refill of a bucket, as the books have it. -/
theorem refill_account {b : ClientBucket} (hrate : 0 ≤ l.rate) (hupdated : b.updated ≤ now)
    (h : Account l.sustained l.burst (inSeconds start) (inSeconds b.updated) b.tokens n) :
    Account l.sustained l.burst (inSeconds start) (inSeconds now)
      (b.refill l.rate l.burst now).tokens n := by
  have hsustained : 0 ≤ l.sustained := le_max_of_le_left hrate
  have hle : ((sub now b.updated : ℤ) : ℚ) / 1000000000 ≤ inSeconds now - inSeconds b.updated := by
    rw [inSeconds, inSeconds, ← sub_div, ← Int.cast_sub]
    refine div_le_div_of_nonneg_right (Int.cast_le.mpr ?_) (by norm_num)
    unfold sub
    omega
  unfold ClientBucket.refill
  dsimp only
  split
  case isTrue helapsed =>
    refine h.refill hsustained (inSeconds_le.mpr hupdated) (mul_nonneg helapsed.le hrate) ?_
    calc ((sub now b.updated : ℤ) : ℚ) / 1000000000 * l.rate
        ≤ (inSeconds now - inSeconds b.updated) * l.sustained :=
          mul_le_mul hle (le_max_left _ _) hrate (helapsed.le.trans hle)
      _ = l.sustained * (inSeconds now - inSeconds b.updated) := mul_comm _ _
  case isFalse => exact h.later hsustained (inSeconds_le.mpr hupdated)

/-- The bucket that expiry leaves. -/
theorem expire_some (h : l.Ordered now) {b : ClientBucket} (hb : (l.expire now).bucket k = some b) :
    l.bucket k = some b := by
  rw [expire_bucket h] at hb
  exact (Option.filter_eq_some_iff.mp hb).1

theorem RateLimiter.Books.expire (h : l.Books k start now n) (hle : now ≤ now') :
    (l.expire now').Books k start now' n := by
  have hordered := h.ordered.later hle
  refine ⟨expire_ordered hordered, h.rate, h.burst,
    fun b hb => h.bucket b (expire_some hordered hb), fun hnone => ?_⟩
  cases hbucket : l.bucket k with
  | none => exact (h.absent hbucket).later h.sustained_nonneg (inSeconds_le.mpr hle)
  | some b =>
    obtain ⟨hupdated, haccount⟩ := h.bucket b hbucket
    have hseen := hordered.seen b (List.mem_of_find?_eq_some hbucket)
    have hidle : b.idle now' = true := by
      rw [expire_bucket hordered, hbucket, Option.filter_eq_none_iff] at hnone
      simpa using hnone b rfl
    rw [hupdated] at haccount
    exact haccount.fill h.sustained_nonneg (inSeconds_le.mpr hseen)
      (burst_le_of_idle h.burst hseen hidle)

/-- The bucket that a packet meets. -/
theorem RateLimiter.Books.meets (h : l.Books k start now n) :
    Account l.sustained l.burst (inSeconds start) (inSeconds now) (l.meets k now).tokens n := by
  unfold RateLimiter.meets
  split
  · rename_i b hb
    obtain ⟨hupdated, haccount⟩ := h.bucket b hb
    have hle := h.ordered.seen b (List.mem_of_find?_eq_some hb)
    exact refill_account h.rate (hupdated.trans_le hle) haccount
  · rename_i hb
    exact h.absent hb

/-- A call on the key. -/
theorem RateLimiter.Books.allow_self (h : l.Books k start now n) (hle : now ≤ now') :
    (l.allow k now').1.Books k start now'
      (n + if start ≤ now' ∧ (l.allow k now').2.1 then 1 else 0) := by
  have hexpired := h.expire hle
  obtain ⟨-, hupdated, hseen, htokens, hallowed⟩ :=
    draw_fields ((l.expire now').meets k now') now'
  obtain ⟨-, hmupdated, hmseen⟩ := meets_fields (l.expire now') k now'
  refine ⟨allow_ordered (h.ordered.later hle) k, h.rate, h.burst, fun b hb => ?_, fun hnone => ?_⟩
  · rw [allow_bucket, Option.some.injEq] at hb
    subst hb
    refine ⟨by rw [hupdated, hseen, hmupdated, hmseen], ?_⟩
    have hpacket := hexpired.meets.packet
    have hcount : (if inSeconds start ≤ inSeconds now' then
        Tokens.grant ((l.expire now').meets k now').tokens else 0) =
        if start ≤ now' ∧ (l.allow k now').2.1 then 1 else 0 := by
      have hflag : (l.allow k now').2.1 = decide (1 ≤ ((l.expire now').meets k now').tokens) :=
        hallowed
      simp only [hflag, decide_eq_true_eq, inSeconds_le, ite_and, Tokens.grant]
    rw [hcount] at hpacket
    rw [hupdated, hmupdated, htokens]
    exact hpacket
  · rw [allow_bucket] at hnone
    cases hnone

/-- A call on another key, while there is room. -/
theorem RateLimiter.Books.allow_other (h : l.Books k start now n) (hle : now ≤ now')
    {k' : BucketKey} (hne : k' ≠ k) (hroom : l.HasRoom (k', now')) :
    (l.allow k' now').1.Books k start now' n := by
  have hexpired := h.expire hle
  have hsame : (l.allow k' now').1.bucket k = (l.expire now').bucket k := by
    rcases allow_bucket_ne hne l now' with hsame | ⟨hfull, -⟩
    · exact hsame
    · exact absurd hroom (not_lt.mpr hfull)
  exact ⟨allow_ordered (h.ordered.later hle) k', h.rate, h.burst,
    fun b hb => hexpired.bucket b (hsame ▸ hb), fun hnone => hexpired.absent (hsame ▸ hnone)⟩

/-- What the books say of the window. -/
theorem RateLimiter.Books.le {stop : ℤ} (h : l.Books k start now n) (hstart : start ≤ stop)
    (hstop : now ≤ stop) :
    (n : ℚ) ≤ l.burst + l.sustained * (inSeconds stop - inSeconds start) := by
  have hwindow := inSeconds_le.mpr hstart
  cases hbucket : l.bucket k with
  | none => exact (h.absent hbucket).admitted_le h.sustained_nonneg hwindow (inSeconds_le.mpr hstop)
  | some b =>
    obtain ⟨hupdated, haccount⟩ := h.bucket b hbucket
    have hseen := h.ordered.seen b (List.mem_of_find?_eq_some hbucket)
    exact haccount.admitted_le h.sustained_nonneg hwindow
      (inSeconds_le.mpr ((hupdated.trans_le hseen).trans hstop))

/-! ## A window of any run -/

/-- What comes after the window is not counted. -/
theorem allowed_after {stop : ℤ} {calls : List (BucketKey × ℤ)} (h : ∀ c ∈ calls, stop < c.2)
    (l : RateLimiter) : l.allowed k start stop calls = 0 := by
  induction calls generalizing l with
  | nil => rfl
  | cons c calls ih =>
    have hlate : stop < c.2 := h c List.mem_cons_self
    have hno : ¬(c.1 = k ∧ start ≤ c.2 ∧ c.2 ≤ stop ∧ (l.allow c.1 c.2).2.1 = true) :=
      fun hin => absurd hin.2.2.1 (not_le.mpr hlate)
    rw [RateLimiter.allowed, if_neg hno, ih fun c hc => h c (List.mem_cons_of_mem _ hc)]

theorem run_books {stop : ℤ} (hstart : start ≤ stop) {calls : List (BucketKey × ℤ)}
    (hmono : calls.Pairwise fun c d => c.2 ≤ d.2)
    (hroom : Runs.Along RateLimiter.step RateLimiter.HasRoom l calls)
    (h : l.Books k start now n) (hstop : now ≤ stop) (hnow : ∀ c ∈ calls, now ≤ c.2) :
    ((n + l.allowed k start stop calls : ℕ) : ℚ) ≤
      l.burst + l.sustained * (inSeconds stop - inSeconds start) := by
  induction calls generalizing l now n with
  | nil => exact h.le hstart hstop
  | cons c calls ih =>
    obtain ⟨k', t⟩ := c
    obtain ⟨hlater, hmono⟩ := List.pairwise_cons.mp hmono
    have hle : now ≤ t := hnow _ List.mem_cons_self
    have hroom' := hroom.2 _ rfl
    rcases le_or_gt t stop with hin | hout
    · rw [RateLimiter.allowed, ← Nat.add_assoc]
      dsimp only
      by_cases hkey : k' = k
      · subst hkey
        have hcount : k' = k' ∧ start ≤ t ∧ t ≤ stop ∧ (l.allow k' t).2.1 = true ↔
            start ≤ t ∧ (l.allow k' t).2.1 = true := by simp [hin]
        rw [if_congr hcount rfl rfl]
        exact ih hmono hroom' (h.allow_self hle) hin hlater
      · rw [if_neg fun hcall => hkey hcall.1, Nat.add_zero]
        exact ih hmono hroom' (h.allow_other hle hkey hroom.1) hin hlater
    · -- the window is over
      have hafter : ∀ c ∈ (k', t) :: calls, stop < c.2 := by
        intro c hc
        rcases List.mem_cons.mp hc with rfl | hc
        · exact hout
        · exact hout.trans_le (hlater c hc)
      rw [allowed_after hafter, Nat.add_zero]
      exact h.le hstart hstop

/-- A new limiter has admitted nothing. -/
theorem books_new (hrate : 0 ≤ l.rate) (hburst : 0 ≤ l.burst) (hnew : l.lru = []) :
    l.Books k start now 0 := by
  refine ⟨ordered_nil hnew now, hrate, hburst, fun b hb => ?_, fun _ => ?_⟩
  · rw [bucket_nil hnew] at hb
    cases hb
  · exact Tokens.account_full (le_max_of_le_left hrate) hburst

theorem rates_of_newHandler {cfg : Config} {h : Handler} (hcfg : newHandler cfg = .ok h) :
    0 ≤ cfg.rateLimitPPS ∧ 0 ≤ cfg.rateBurst := by
  obtain ⟨herrors, -⟩ := newHandler_ok hcfg
  simp only [Config.errors, List.append_eq_nil_iff, ite_eq_left_iff, imp_false, List.cons_ne_nil,
    not_not] at herrors
  obtain ⟨⟨⟨-, hrate⟩, hburst⟩, -⟩ := herrors
  exact ⟨hrate.1.le, zero_le_one.trans hburst.1⟩

/-- **The bound on one bucket.**  While the table does not fill, the calls on a key that are
allowed in a window are at most the burst and what the rate, or a burst in each
`clientIdleExpiry` if that is more, gives in its length. -/
theorem allowed_le {cfg : Config} {h : Handler} (hcfg : newHandler cfg = .ok h) (k : BucketKey)
    (calls : List (BucketKey × ℤ)) (hmono : calls.Pairwise fun c d => c.2 ≤ d.2)
    (hroom : Runs.Along RateLimiter.step RateLimiter.HasRoom h.limiter calls) (start d : ℤ)
    (hd : 0 ≤ d) :
    (h.limiter.allowed k start (start + d) calls : ℚ) ≤
      cfg.rateBurst + max cfg.rateLimitPPS (cfg.rateBurst / 60) * inSeconds d := by
  obtain ⟨hrate, hburst⟩ := rates_of_newHandler hcfg
  obtain ⟨-, rfl⟩ := newHandler_ok hcfg
  obtain ⟨first, hfirst⟩ := exists_start hmono
  have hbooks : cfg.handler.limiter.Books k start (min first (start + d)) 0 :=
    books_new hrate hburst rfl
  have hle := run_books (by omega) hmono hroom hbooks (min_le_right _ _)
    fun c hc => (min_le_left _ _).trans (hfirst c hc)
  have hwindow : inSeconds (start + d) - inSeconds start = inSeconds d := by
    unfold inSeconds
    push_cast
    ring
  have hsustained : cfg.handler.limiter.sustained = max cfg.rateLimitPPS (cfg.rateBurst / 60) := by
    show max _ (_ / inSeconds clientIdleExpiry) = _
    rw [inSeconds_clientIdleExpiry]
    rfl
  rw [Nat.zero_add, hwindow, hsustained] at hle
  exact hle

/-- A bucket that gains a token in a hundred seconds. -/
def slowConfig : Config := { labConfig with rateLimitPPS := 1 / 100, rateBurst := 1 }

/-- A client that returns after a little more than a minute, while others call. -/
def slowCalls : List (BucketKey × ℤ) :=
  [(⟨.v4 1, 0, .service⟩, 0), (⟨.v4 2, 0, .service⟩, 30 * second),
    (⟨.v4 1, 0, .service⟩, 61 * second)]

theorem allowed_le_slowCalls :
    (slowConfig.handler.limiter.allowed ⟨.v4 1, 0, .service⟩ 0 (0 + 61 * second) slowCalls : ℚ) ≤
      1 + max (1 / 100) (1 / 60) * inSeconds (61 * second) :=
  allowed_le (if_neg (not_not.mpr (by decide +kernel))) _ slowCalls (by decide) (by decide +kernel)
    0 _ (by decide)

/-- The bucket is forgotten sooner than it would fill, and the burst is there once more. -/
theorem allowed_twice_across_expiry :
    newHandler slowConfig = .ok slowConfig.handler ∧
      slowCalls.Pairwise (fun c d => c.2 ≤ d.2) ∧
      Runs.Along RateLimiter.step RateLimiter.HasRoom slowConfig.handler.limiter slowCalls ∧
      slowConfig.rateBurst + slowConfig.rateLimitPPS * inSeconds (61 * second) <
        slowConfig.handler.limiter.allowed ⟨.v4 1, 0, .service⟩ 0 (0 + 61 * second) slowCalls :=
  ⟨if_neg (not_not.mpr (by decide +kernel)), by decide, by decide +kernel, by decide +kernel⟩

end Carillon.Server
