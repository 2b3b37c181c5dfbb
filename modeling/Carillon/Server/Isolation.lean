/-
# Flood isolation

A client under a rule draws on a service bucket that nobody else can draw on.  What
others send can still touch that bucket: it can make it expire, or push it out of a full
table, and then the client meets a full bucket.  Two runs are compared here, packet by
packet: one with everything that arrives, and one with the packets of that bucket only.

Without evictions the two limiters hold the same bucket, up to an expiry that the second
one has not noticed yet (`Mirrors`).  With evictions the first is ahead of the second
(`Outpaces`): not in every packet, but in the number that it has admitted.
-/
import Carillon.Server.Safety

namespace Carillon.Server

open Ntp (Key)

/-! ## Two limiters -/

/-- The second limiter has seen the packets of one bucket only. -/
structure Beside (B : BucketKey) (l alone : RateLimiter) (now : ℤ) : Prop where
  config : l.SameConfig alone
  ordered : l.Ordered now
  only : alone.lru = [] ∨
    ∃ b, alone.lru = [b] ∧ b.key = B ∧ b.lastSeen ≤ now ∧ b.tokens ≤ alone.burst

section Limiters

variable {B : BucketKey} {l alone : RateLimiter} {now now' : ℤ}

theorem Beside.aloneOrdered (h : Beside B l alone now) : alone.Ordered now := by
  rcases h.only with hnil | ⟨b, hb, -, hseen, -⟩
  · constructor
    · rw [hnil]
      exact List.Pairwise.nil
    · rw [hnil]
      exact fun b hb => absurd hb List.not_mem_nil
  · constructor
    · rw [hb]
      exact List.pairwise_singleton _ _
    · rw [hb]
      intro b' hb'
      rw [List.mem_singleton.mp hb']
      exact hseen

/-- The only bucket that the second limiter can have, if it is not idle. -/
theorem Beside.alone_bucket (h : Beside B l alone now) (hle : now ≤ now') :
    (alone.expire now').bucket B = none ∧ (alone.expire now').lru = [] ∨
      ∃ b, alone.lru = [b] ∧ b.idle now' = false ∧ (alone.expire now').bucket B = some b ∧
        (alone.expire now').lru = [b] ∧ b.key = B ∧ b.tokens ≤ alone.burst := by
  have hlru := expire_lru (h.aloneOrdered.later hle)
  rcases h.only with hnil | ⟨b, hb, hkey, -, htokens⟩
  · rw [hnil] at hlru
    refine .inl ⟨?_, hlru⟩
    unfold RateLimiter.bucket
    rw [hlru]
    rfl
  · rw [hb] at hlru
    cases hidle : b.idle now' with
    | true =>
      rw [List.filter_cons_of_neg (by simp [hidle])] at hlru
      refine .inl ⟨?_, hlru⟩
      unfold RateLimiter.bucket
      rw [hlru]
      rfl
    | false =>
      rw [List.filter_cons_of_pos (by simp [hidle]), List.filter_nil] at hlru
      refine .inr ⟨b, hb, hidle, ?_, hlru, hkey, htokens⟩
      unfold RateLimiter.bucket
      rw [hlru, find_key_pos hkey]

/-- No bucket is left beside the one of the packet. -/
theorem Beside.alone_others (h : Beside B l alone now) (hle : now ≤ now') :
    (alone.expire now').others B = [] := by
  unfold RateLimiter.others
  rcases h.alone_bucket hle with ⟨hnone, hnil⟩ | ⟨b, -, -, hsome, hlru, hkey, -⟩
  · rw [hnone]
    dsimp only
    split_ifs
    · show (alone.expire now').lru.dropLast = []
      rw [hnil]
      rfl
    · exact hnil
  · rw [hsome]
    dsimp only
    rw [hlru, List.eraseP_cons_of_pos (by simpa using hkey)]

/-- The bucket that a packet meets alone holds no more than the burst. -/
theorem Beside.alone_meets (h : Beside B l alone now) (hle : now ≤ now') :
    ((alone.expire now').meets B now').tokens ≤ alone.burst := by
  unfold RateLimiter.meets
  rcases h.alone_bucket hle with ⟨hnone, -⟩ | ⟨b, -, -, hsome, -, -, htokens⟩
  · rw [hnone]
    exact le_refl _
  · rw [hsome]
    show (if _ then min alone.burst _ else b.tokens) ≤ _
    split_ifs
    · exact min_le_left _ _
    · exact htokens

/-- A packet on another bucket. -/
theorem Beside.off (h : Beside B l alone now) (hle : now ≤ now') (k : BucketKey) :
    Beside B (l.allow k now').1 alone now' := by
  refine ⟨h.config.both (allow_sameConfig l k now') (.refl _),
    allow_ordered (h.ordered.later hle) k, ?_⟩
  refine h.only.imp_right ?_
  rintro ⟨b, hb, hkey, hseen, htokens⟩
  exact ⟨b, hb, hkey, hseen.trans hle, htokens⟩

/-- A packet on the bucket. -/
theorem Beside.on (h : Beside B l alone now) (hle : now ≤ now') :
    Beside B (l.allow B now').1 (alone.allow B now').1 now' := by
  refine ⟨h.config.both (allow_sameConfig l B now') (allow_sameConfig alone B now'),
    allow_ordered (h.ordered.later hle) B,
    .inr ⟨(((alone.expire now').meets B now').draw now').1, ?_, ?_, ?_, ?_⟩⟩
  · rw [allow_lru, h.alone_others hle]
  · rw [(draw_fields _ now').1, (meets_fields _ B now').1]
  · rw [(draw_fields _ now').2.2.1, (meets_fields _ B now').2.2]
  · rw [(draw_fields _ now').2.2.2.1]
    have hmeets := h.alone_meets hle
    unfold Tokens.spend
    split_ifs
    · exact (sub_le_self _ zero_le_one).trans hmeets
    · exact hmeets

/-- The bucket in the table, where it is after an expiry. -/
theorem Beside.bucket_of_expire (h : Beside B l alone now) (hle : now ≤ now') {b : ClientBucket}
    (hb : (l.expire now').bucket B = some b) : l.bucket B = some b ∧ b.idle now' = false := by
  rw [expire_bucket (h.ordered.later hle), Option.filter_eq_some_iff] at hb
  exact ⟨hb.1, by simpa using hb.2⟩

/-! ### With evictions -/

/-- The first limiter has admitted no fewer packets of the bucket, `n` to `m`; and if
it has the bucket, that one is ahead. -/
structure Outpaces (B : BucketKey) (l alone : RateLimiter) (now : ℤ) (n m : ℕ) : Prop
    extends Beside B l alone now where
  count : m ≤ n
  ahead : ∀ b, l.bucket B = some b → ∃ b', alone.lru = [b'] ∧ b.lastSeen = b'.lastSeen ∧
    b.updated = b'.updated ∧ Tokens.Ahead b.tokens b'.tokens n m

/-- A packet on another bucket. -/
theorem Outpaces.off {n m : ℕ} (h : Outpaces B l alone now n m) (hle : now ≤ now') {k : BucketKey}
    (hk : k ≠ B) : Outpaces B (l.allow k now').1 alone now' n m := by
  refine ⟨h.toBeside.off hle k, h.count, ?_⟩
  intro b hb
  rcases allow_bucket_ne hk l now' with hsame | ⟨-, hnone⟩
  · rw [hsame] at hb
    exact h.ahead b (h.bucket_of_expire hle hb).1
  · rw [hnone] at hb
    cases hb

/-- What the packet meets in the two limiters. -/
theorem Outpaces.meets {n m : ℕ} (h : Outpaces B l alone now n m) (hle : now ≤ now') :
    Tokens.Ahead ((l.expire now').meets B now').tokens ((alone.expire now').meets B now').tokens
      n m := by
  cases hb : (l.expire now').bucket B with
  | none =>
    -- expired or evicted: the packet meets a full bucket
    have hfull : ((l.expire now').meets B now').tokens = alone.burst := by
      unfold RateLimiter.meets
      rw [hb]
      exact h.config.burst.symm
    rw [hfull]
    exact Tokens.ahead_full (h.alone_meets hle) h.count
  | some b =>
    obtain ⟨hbucket, hidle⟩ := h.bucket_of_expire hle hb
    obtain ⟨b', hlru, hseen, hupdated, hahead⟩ := h.ahead b hbucket
    -- the other limiter has not lost it either
    have hb' : (alone.expire now').bucket B = some b' := by
      have hidle' : b'.idle now' = false := by
        rw [← hidle]
        unfold ClientBucket.idle
        rw [hseen]
      rcases h.only with hnil | ⟨c, hc, hkey, -, -⟩
      · rw [hnil] at hlru
        cases hlru
      · rw [hc] at hlru
        obtain rfl : c = b' := (List.cons.inj hlru).1
        unfold RateLimiter.bucket
        rw [expire_lru (h.aloneOrdered.later hle), hc, List.filter_cons_of_pos (by simp [hidle']),
          find_key_pos hkey]
    unfold RateLimiter.meets
    rw [hb, hb']
    show Tokens.Ahead
      (if 0 < ((sub now' b.updated : ℤ) : ℚ) / 1000000000 then
        min l.burst (b.tokens + ((sub now' b.updated : ℤ) : ℚ) / 1000000000 * l.rate) else b.tokens)
      (if 0 < ((sub now' b'.updated : ℤ) : ℚ) / 1000000000 then
        min alone.burst (b'.tokens + ((sub now' b'.updated : ℤ) : ℚ) / 1000000000 * alone.rate)
        else b'.tokens) n m
    rw [hupdated, h.config.burst, h.config.rate]
    split_ifs
    · exact hahead.refill _ _
    · exact hahead

/-- Whether a draw was admitted, as a count. -/
def admits (l : RateLimiter) (k : BucketKey) (now : ℤ) : ℕ :=
  if (l.allow k now).2.1 then 1 else 0

theorem admits_eq (l : RateLimiter) (k : BucketKey) (now : ℤ) :
    admits l k now = Tokens.grant ((l.expire now).meets k now).tokens := by
  have hdraw : (l.allow k now).2.1 = decide (1 ≤ ((l.expire now).meets k now).tokens) :=
    (draw_fields _ now).2.2.2.2
  unfold admits Tokens.grant
  rw [hdraw]
  simp only [decide_eq_true_eq]

/-- A packet on the bucket, on either side. -/
theorem Outpaces.on {n m : ℕ} (h : Outpaces B l alone now n m) (hle : now ≤ now') :
    Outpaces B (l.allow B now').1 (alone.allow B now').1 now'
      (n + admits l B now') (m + admits alone B now') := by
  have hpacket := (h.meets hle).packet
  rw [← admits_eq, ← admits_eq] at hpacket
  refine ⟨h.toBeside.on hle, hpacket.admitted, ?_⟩
  intro b hb
  rw [allow_bucket] at hb
  obtain rfl := Option.some.inj hb
  refine ⟨(((alone.expire now').meets B now').draw now').1, ?_, ?_, ?_, ?_⟩
  · rw [allow_lru, h.alone_others hle]
  · rw [(draw_fields _ now').2.2.1, (draw_fields _ now').2.2.1, (meets_fields _ B now').2.2,
      (meets_fields _ B now').2.2]
  · rw [(draw_fields _ now').2.1, (draw_fields _ now').2.1, (meets_fields _ B now').2.1,
      (meets_fields _ B now').2.1]
  · rw [(draw_fields _ now').2.2.2.1, (draw_fields _ now').2.2.2.1]
    exact hpacket

/-! ### Without evictions -/

/-- The two limiters hold the same bucket, or the first has let it expire. -/
structure Mirrors (B : BucketKey) (l alone : RateLimiter) (now : ℤ) : Prop
    extends Beside B l alone now where
  same : (∃ b, l.bucket B = some b ∧ alone.lru = [b]) ∨
    l.bucket B = none ∧ ∀ b ∈ alone.lru, b.idle now = true

/-- A packet on another bucket, with room in the table. -/
theorem Mirrors.off (h : Mirrors B l alone now) (hle : now ≤ now') {k : BucketKey} (hk : k ≠ B)
    (hroom : (l.expire now').size < l.maxClients) : Mirrors B (l.allow k now').1 alone now' := by
  refine ⟨h.toBeside.off hle k, ?_⟩
  have hsame : (l.allow k now').1.bucket B = (l.bucket B).filter fun b => !b.idle now' := by
    rw [← expire_bucket (h.ordered.later hle)]
    rcases allow_bucket_ne hk l now' with hsame | ⟨hfull, -⟩
    · exact hsame
    · omega
  rcases h.same with ⟨b, hb, halone⟩ | ⟨hnone, hidle⟩
  · rw [hb, Option.filter_some] at hsame
    cases hidle : b.idle now' with
    | true =>
      refine .inr ⟨by simpa [hidle] using hsame, ?_⟩
      rw [halone]
      intro c hc
      rw [List.mem_singleton.mp hc, hidle]
    | false => exact .inl ⟨b, by simpa [hidle] using hsame, halone⟩
  · rw [hnone] at hsame
    refine .inr ⟨hsame, ?_⟩
    intro b hb
    exact idle_later (h.aloneOrdered.seen b hb) hle (hidle b hb)

/-- **The two limiters meet the packet with the same bucket.** -/
theorem Mirrors.meets (h : Mirrors B l alone now) (hle : now ≤ now') :
    (l.expire now').meets B now' = (alone.expire now').meets B now' := by
  have hbucket : (l.expire now').bucket B = (alone.expire now').bucket B := by
    rw [expire_bucket (h.ordered.later hle), expire_bucket (h.aloneOrdered.later hle)]
    rcases h.same with ⟨b, hb, halone⟩ | ⟨hnone, hidle⟩
    · have hb' : alone.bucket B = some b := by
        unfold RateLimiter.bucket
        rw [halone, find_key_pos (bucket_key hb)]
      rw [hb, hb']
    · rw [hnone, Option.filter_none]
      symm
      rw [Option.filter_eq_none_iff]
      intro b hb
      have hmem := List.mem_of_find?_eq_some hb
      simp [idle_later (h.aloneOrdered.seen b hmem) hle (hidle b hmem)]
  have hrate : (alone.expire now').rate = (l.expire now').rate := h.config.rate
  have hburst : (alone.expire now').burst = (l.expire now').burst := h.config.burst
  unfold RateLimiter.meets
  rw [hbucket, hrate, hburst]

/-- A packet on the bucket is answered alike. -/
theorem Mirrors.on (h : Mirrors B l alone now) (hle : now ≤ now') :
    Mirrors B (l.allow B now').1 (alone.allow B now').1 now' ∧
      (l.allow B now').2.1 = (alone.allow B now').2.1 := by
  have hmeets := h.meets hle
  refine ⟨⟨h.toBeside.on hle, .inl ⟨_, allow_bucket l B now', ?_⟩⟩, ?_⟩
  · rw [allow_lru, h.alone_others hle, hmeets]
  · show (((l.expire now').meets B now').draw now').2.1 = _
    rw [hmeets]
    rfl

end Limiters

/-! ## Two runs -/

/-- A datagram, and what the daemon returns while it is handled. -/
structure Datagram where
  env : Env
  request : Bytes
  client : AddrPort
  receive : ℤ
  mono : ℤ

def Handler.step (cr : Crypto) (h : Handler) (x : Datagram) : Result :=
  h.handle cr x.env x.request x.client x.receive x.mono

/-- The results of a trace of calls. -/
def Handler.run (cr : Crypto) : Handler → List Datagram → List Result
  | _, [] => []
  | h, x :: xs => h.step cr x :: Handler.run cr (h.step cr x).handler xs

/-- The call drew on the bucket. -/
def Result.drawsOn (B : BucketKey) (r : Result) : Bool :=
  r.drawn.any (·.1 == B)

theorem drawsOn_iff {B : BucketKey} {r : Result} :
    r.drawsOn B = true ↔ ∃ b, r.drawn = some (B, b) := by
  unfold Result.drawsOn
  cases hdrawn : r.drawn with
  | none => simp
  | some x =>
    obtain ⟨k, b⟩ := x
    simp

/-- The call drew on the bucket and was admitted. -/
def Result.admittedOn (B : BucketKey) (r : Result) : Bool :=
  decide (r.drawn = some (B, true))

/-- The datagrams of a trace that draw on the bucket. -/
def Handler.onBucket (cr : Crypto) (B : BucketKey) : Handler → List Datagram → List Datagram
  | _, [] => []
  | h, x :: xs =>
    if (h.step cr x).drawsOn B then x :: Handler.onBucket cr B (h.step cr x).handler xs
    else Handler.onBucket cr B (h.step cr x).handler xs

/-- Every address that the bucket covers is under a rule for the key. -/
def Handler.Guards (h : Handler) (k : BitVec 32) (B : BucketKey) : Prop :=
  ∀ a : Addr, a.unmap.zoneless = true → h.limiter.key a k = B → h.policy.requiredKey a.unmap = k

theorem unmap_unmap (a : Addr) : a.unmap.unmap = a.unmap := by
  cases a with
  | invalid => rfl
  | v4 bits => rfl
  | v6 bits zone =>
    by_cases h : bits >>> 32 = 0xffff
    · have hmapped : (Addr.v6 bits zone).unmap = .v4 (bits.setWidth 32) := if_pos h
      rw [hmapped]
      rfl
    · have hplain : (Addr.v6 bits zone).unmap = .v6 bits zone := if_neg h
      rw [hplain, hplain]

/-- The client of a permitted datagram has no zone. -/
theorem Requested.zoneless {p : Policy} {request : Bytes} {client : AddrPort} {d : Ntp.Decoded}
    (h : Requested p request client d) : client.addr.unmap.zoneless = true := by
  have hpermitted := h.permitted
  unfold Policy.permitted at hpermitted
  split_ifs at hpermitted
  obtain ⟨pfx, -, hcontains⟩ := List.any_eq_true.mp hpermitted
  exact Prefix.zoneless_of_contains hcontains

section Runs

variable {cr : Crypto} {h alone : Handler} {k : BitVec 32} {B : BucketKey}

/-- **A packet on the bucket**, in the run and in any other state of the server: the
limiter is asked for this bucket and for nothing else. -/
theorem step_on (hk : k ≠ 0) (hkey : B.keyID = k) (hguards : h.Guards k B) {x : Datagram}
    (hdraws : (h.step cr x).drawsOn B = true) (hpolicy : alone.policy = h.policy)
    (hconfig : h.limiter.SameConfig alone.limiter) :
    (alone.step cr x).drawn = some (B, (alone.limiter.allow B x.mono).2.1) ∧
      (alone.step cr x).handler.limiter = (alone.limiter.allow B x.mono).1 ∧
      (alone.step cr x).handler.policy = alone.policy := by
  obtain ⟨b, hdrawn⟩ := drawsOn_iff.mp hdraws
  unfold Handler.step at *
  rcases handle_cases cr h x.env x.request x.client x.receive x.mono with hrefused | ⟨d,
    hreq, hends⟩
  · rw [hrefused.drawn] at hdrawn
    cases hdrawn
  obtain ⟨key, hadmitted, hbucket⟩ := hends.bucket B b hdrawn
  have hid : keyIDOf key = k := by
    rw [← hkey, hbucket]
    rfl
  have hrule : h.policy.requiredKey x.client.addr.unmap = k := by
    have hzone := hreq.zoneless
    rw [← unmap_unmap] at hzone ⊢
    refine hguards _ hzone ?_
    rw [hbucket, hid]
  have hsame : alone.limiter.key x.client.addr.unmap (keyIDOf key) = B := by
    rw [hbucket]
    exact hconfig.spaceKey _ _ _
  rw [← hpolicy] at hreq hadmitted hrule
  have hserve :=
    @handle_required cr alone x.env x.request x.client d key x.receive x.mono hreq hadmitted
    (by rw [hrule]; exact hk)
  rw [hserve]
  have hdrawn' := serve_drawn cr alone x.env x.request d x.client.addr.unmap key x.receive x.mono
  rwa [hsame] at hdrawn'

/-- **Any other packet** draws on other buckets. -/
theorem step_off (hspace : B.space = .service) {x : Datagram}
    (hdraws : (h.step cr x).drawsOn B = false) :
    ∃ ks : List BucketKey, B ∉ ks ∧
      (h.step cr x).handler.limiter = h.limiter.drawAll ks x.mono := by
  unfold Handler.step at *
  rcases handle_cases cr h x.env x.request x.client x.receive x.mono with hrefused | ⟨d, -, hends⟩
  · exact ⟨[], List.not_mem_nil, hrefused.limiter⟩
  obtain ⟨metered, hcrypto, hlimiter⟩ := hends.limiter
  refine ⟨_, ?_, hlimiter⟩
  intro hmem
  rcases List.mem_append.mp hmem with hmem | hmem
  · have hB := hcrypto B hmem
    rw [hspace] at hB
    cases hB
  · rw [Option.mem_toList, Option.map_eq_some_iff] at hmem
    obtain ⟨⟨B', b⟩, hdrawn, hB⟩ := hmem
    obtain rfl : B' = B := hB
    rw [drawsOn_iff.mpr ⟨b, hdrawn⟩] at hdraws
    cases hdraws

/-- A datagram leaves the policy. -/
theorem step_policy (h : Handler) (x : Datagram) : (h.step cr x).handler.policy = h.policy := by
  rcases handle_cases cr h x.env x.request x.client x.receive x.mono with hrefused | ⟨d, -, hends⟩
  · exact hrefused.policy
  · exact hends.policy

theorem drawAll_sameConfig (l : RateLimiter) (ks : List BucketKey) (mono : ℤ) :
    l.SameConfig (l.drawAll ks mono) := by
  induction ks generalizing l with
  | nil => exact .refl _
  | cons k ks ih => exact (allow_sameConfig l k mono).both (.refl _) (ih (l.allow k mono).1)

theorem step_sameConfig (h : Handler) (x : Datagram) :
    h.limiter.SameConfig (h.step cr x).handler.limiter := by
  rcases handle_cases cr h x.env x.request x.client x.receive x.mono with hrefused | ⟨d, -, hends⟩
  · rw [Handler.step, hrefused.limiter]
    exact .refl _
  · obtain ⟨metered, -, hlimiter⟩ := hends.limiter
    rw [Handler.step, hlimiter]
    exact drawAll_sameConfig _ _ _

/-- It leaves the guard of the bucket. -/
theorem step_guards (hguards : h.Guards k B) (x : Datagram) : (h.step cr x).handler.Guards k B := by
  intro a hzone hkey
  rw [step_policy]
  refine hguards a hzone ?_
  rw [← hkey]
  exact ((step_sameConfig h x).spaceKey _ _ _).symm

/-- Packets on other buckets, one after the other. -/
theorem Outpaces.drawAll {l a : RateLimiter} {now now' : ℤ} {n m : ℕ}
    (hout : Outpaces B l a now n m) (hle : now ≤ now') {ks : List BucketKey} (hks : B ∉ ks) :
    Outpaces B (l.drawAll ks now') a now' n m := by
  induction ks generalizing l now with
  | nil =>
    -- no packet, but time goes on
    refine ⟨⟨hout.config, hout.ordered.later hle, hout.only.imp_right ?_⟩, hout.count, hout.ahead⟩
    rintro ⟨b, hb, hkey, hseen, htokens⟩
    exact ⟨b, hb, hkey, hseen.trans hle, htokens⟩
  | cons k ks ih =>
    rw [List.mem_cons, not_or] at hks
    exact ih (hout.off hle (Ne.symm hks.1)) (le_refl _) hks.2

/-- **The number of admitted packets, along a trace.** -/
theorem run_outpaces (hk : k ≠ 0) (hkey : B.keyID = k) (hspace : B.space = .service)
    (xs : List Datagram) {h alone : Handler} (hguards : h.Guards k B)
    (hpolicy : alone.policy = h.policy) {now : ℤ} {n m : ℕ}
    (hout : Outpaces B h.limiter alone.limiter now n m) (hnow : ∀ x ∈ xs, now ≤ x.mono)
    (hmono : xs.Pairwise fun x y => x.mono ≤ y.mono) :
    m + (alone.run cr (h.onBucket cr B xs)).countP (·.admittedOn B) ≤
      n + (h.run cr xs).countP (·.admittedOn B) := by
  induction xs generalizing h alone now n m with
  | nil => exact hout.count
  | cons x xs ih =>
    rw [List.pairwise_cons] at hmono
    have hle := hnow x List.mem_cons_self
    have hguards' := @step_guards cr h k B hguards x
    cases hdraws : (h.step cr x).drawsOn B with
    | true =>
      obtain ⟨hdrawn, hlimiter, -⟩ := step_on hk hkey hguards hdraws rfl (.refl _)
      obtain ⟨hdrawn', hlimiter', hpolicy'⟩ := step_on hk hkey hguards hdraws hpolicy hout.config
      have hnext := hout.on hle
      rw [← hlimiter, ← hlimiter'] at hnext
      have hrest := ih hguards' (by rw [hpolicy', hpolicy, step_policy]) hnext hmono.1 hmono.2
      -- what this packet adds on either side is what the limiter said
      have hcount : ∀ {g : Handler}, (g.step cr x).drawn =
          some (B, (g.limiter.allow B x.mono).2.1) →
          ∀ rs : List Result, ((g.step cr x) :: rs).countP (·.admittedOn B) =
            rs.countP (·.admittedOn B) + admits g.limiter B x.mono := by
        intro g hg rs
        rw [List.countP_cons]
        unfold admits Result.admittedOn
        rw [hg]
        cases (g.limiter.allow B x.mono).2.1 <;> simp
      rw [Handler.onBucket, if_pos hdraws, Handler.run, Handler.run, hcount hdrawn, hcount hdrawn']
      omega
    | false =>
      obtain ⟨ks, hks, hlimiter⟩ := step_off hspace hdraws
      have hnext := hout.drawAll hle hks
      rw [← hlimiter] at hnext
      have hrest := ih hguards' (by rw [hpolicy, step_policy]) hnext hmono.1 hmono.2
      have hzero : (h.step cr x).admittedOn B = false := by
        refine decide_eq_false ?_
        intro hdrawn
        rw [drawsOn_iff.mpr ⟨true, hdrawn⟩] at hdraws
        cases hdraws
      rw [Handler.onBucket, if_neg (by rw [hdraws]; exact Bool.false_ne_true), Handler.run,
        List.countP_cons_of_neg (by rw [hzero]; exact Bool.false_ne_true)]
      exact hrest

/-- Draws at one time do not make the table smaller. -/
theorem size_le_drawAll {l : RateLimiter} {now : ℤ} (hordered : l.Ordered now)
    (ks : List BucketKey) : (l.expire now).size ≤ (l.drawAll ks now).size := by
  induction ks generalizing l with
  | nil =>
    unfold RateLimiter.size
    rw [expire_lru hordered]
    exact List.length_filter_le _ _
  | cons k ks ih =>
    have hrest := ih (allow_ordered hordered k)
    have hkept : ((l.allow k now).1.expire now).size = (l.allow k now).1.size :=
      congrArg List.length (expire_allow hordered k)
    have hstep := size_le_allow l k now
    show _ ≤ ((l.allow k now).1.drawAll ks now).size
    omega

theorem Mirrors.drawAll {l a : RateLimiter} {now now' : ℤ} (hmirror : Mirrors B l a now)
    (hle : now ≤ now') {ks : List BucketKey} (hks : B ∉ ks)
    (hroom : (l.drawAll ks now').size < l.maxClients) : Mirrors B (l.drawAll ks now') a now' := by
  induction ks generalizing l now with
  | nil =>
    refine ⟨⟨hmirror.config, hmirror.ordered.later hle, hmirror.only.imp_right ?_⟩,
      hmirror.same.imp_right ?_⟩
    · rintro ⟨b, hb, hkey, hseen, htokens⟩
      exact ⟨b, hb, hkey, hseen.trans hle, htokens⟩
    · rintro ⟨hnone, hidle⟩
      refine ⟨hnone, ?_⟩
      intro b hb
      exact idle_later (hmirror.aloneOrdered.seen b hb) hle (hidle b hb)
  | cons k ks ih =>
    rw [List.mem_cons, not_or] at hks
    have hsize := size_le_drawAll (hmirror.ordered.later hle) (k :: ks)
    exact ih (hmirror.off hle (Ne.symm hks.1) (by omega)) (le_refl _) hks.2 hroom

/-- **The same packets are admitted, along a trace** on which the table is never full. -/
theorem run_mirrors (hk : k ≠ 0) (hkey : B.keyID = k) (hspace : B.space = .service)
    (xs : List Datagram) {h alone : Handler} (hguards : h.Guards k B)
    (hpolicy : alone.policy = h.policy) {now : ℤ} (hmirror : Mirrors B h.limiter alone.limiter now)
    (hnow : ∀ x ∈ xs, now ≤ x.mono) (hmono : xs.Pairwise fun x y => x.mono ≤ y.mono)
    (hroom : ∀ r ∈ h.run cr xs, r.handler.limiter.size < r.handler.limiter.maxClients) :
    (alone.run cr (h.onBucket cr B xs)).map (·.drawn) =
      ((h.run cr xs).filter (·.drawsOn B)).map (·.drawn) := by
  induction xs generalizing h alone now with
  | nil => rfl
  | cons x xs ih =>
    rw [List.pairwise_cons] at hmono
    have hle := hnow x List.mem_cons_self
    have hguards' := @step_guards cr h k B hguards x
    have hroom' : ∀ r ∈ Handler.run cr (h.step cr x).handler xs,
        r.handler.limiter.size < r.handler.limiter.maxClients :=
      fun r hr => hroom r (List.mem_cons_of_mem _ hr)
    cases hdraws : (h.step cr x).drawsOn B with
    | true =>
      obtain ⟨hdrawn, hlimiter, -⟩ := step_on hk hkey hguards hdraws rfl (.refl _)
      obtain ⟨hdrawn', hlimiter', hpolicy'⟩ := step_on hk hkey hguards hdraws hpolicy hmirror.config
      obtain ⟨hnext, hanswer⟩ := hmirror.on hle
      rw [← hlimiter, ← hlimiter'] at hnext
      have hrest :=
        ih hguards' (by rw [hpolicy', hpolicy, step_policy]) hnext hmono.1 hmono.2 hroom'
      rw [Handler.onBucket, if_pos hdraws, Handler.run, Handler.run, List.map_cons,
        List.filter_cons_of_pos hdraws, List.map_cons, hdrawn, hdrawn', hanswer, hrest]
    | false =>
      obtain ⟨ks, hks, hlimiter⟩ := step_off hspace hdraws
      have hfits := hroom _ List.mem_cons_self
      rw [(step_sameConfig h x).maxClients, hlimiter] at hfits
      have hnext := hmirror.drawAll hle hks hfits
      rw [← hlimiter] at hnext
      have hrest := ih hguards' (by rw [hpolicy, step_policy]) hnext hmono.1 hmono.2 hroom'
      have hnot : ¬(h.step cr x).drawsOn B = true := by
        rw [hdraws]
        exact Bool.false_ne_true
      rw [Handler.onBucket, if_neg hnot, Handler.run, List.filter_cons_of_neg hnot]
      exact hrest

/-- Alone, the packets draw on the bucket as well. -/
theorem run_draws (hk : k ≠ 0) (hkey : B.keyID = k) (xs : List Datagram) {h alone : Handler}
    (hguards : h.Guards k B) (hpolicy : alone.policy = h.policy)
    (hconfig : h.limiter.SameConfig alone.limiter) :
    ∀ r ∈ alone.run cr (h.onBucket cr B xs), r.drawsOn B = true := by
  induction xs generalizing h alone with
  | nil =>
    intro r hr
    exact absurd hr List.not_mem_nil
  | cons x xs ih =>
    have hguards' := @step_guards cr h k B hguards x
    have hstep := @step_sameConfig cr h x
    have hpolicies : ∀ {g : Handler}, g.policy = h.policy → g.policy =
        (h.step cr x).handler.policy :=
      fun hg => hg.trans (step_policy h x).symm
    by_cases hdraws : (h.step cr x).drawsOn B = true
    · obtain ⟨hdrawn', -, hpolicy'⟩ := step_on hk hkey hguards hdraws hpolicy hconfig
      rw [Handler.onBucket, if_pos hdraws, Handler.run]
      intro r hr
      rcases List.mem_cons.mp hr with rfl | hr
      · exact drawsOn_iff.mpr ⟨_, hdrawn'⟩
      · exact ih hguards' (hpolicies (hpolicy'.trans hpolicy))
          (hconfig.both hstep (step_sameConfig alone x)) r hr
    · rw [Handler.onBucket, if_neg hdraws]
      exact ih hguards' (hpolicies hpolicy) (hconfig.both hstep (.refl _))

end Runs

/-- A new limiter beside itself. -/
theorem beside_new {B : BucketKey} {l : RateLimiter} (hnew : l.lru = []) (now : ℤ) :
    Beside B l l now :=
  ⟨.refl l, ordered_nil hnew now, .inl hnew⟩

/-- **Flood isolation.**  The packets that draw on the bucket of a client under a rule
are compared with the same packets alone.  If the table never fills up, exactly the same
ones are admitted; and whatever arrives, no fewer are admitted in any prefix of the
trace. -/
theorem flood_isolation (cr : Crypto) (cfg : Config) (h : Handler) (hcfg : newHandler cfg = .ok h)
    (client : Addr) (k : BitVec 32) (hk : k ≠ 0) (hguards : h.Guards k (h.limiter.key client k))
    (trace : List Datagram) (hmono : trace.Pairwise fun x y => x.mono ≤ y.mono) :
    (∀ r ∈ h.run cr (h.onBucket cr (h.limiter.key client k) trace),
      r.drawsOn (h.limiter.key client k) = true) ∧
    ((∀ r ∈ h.run cr trace, r.handler.limiter.size < r.handler.limiter.maxClients) →
      (h.run cr (h.onBucket cr (h.limiter.key client k) trace)).map (·.drawn) =
        ((h.run cr trace).filter (·.drawsOn (h.limiter.key client k))).map (·.drawn)) ∧
    ∀ n, (h.run cr (h.onBucket cr (h.limiter.key client k) (trace.take n))).countP
        (·.admittedOn (h.limiter.key client k)) ≤
      (h.run cr (trace.take n)).countP (·.admittedOn (h.limiter.key client k)) := by
  have hnew : h.limiter.lru = [] := by
    obtain ⟨-, rfl⟩ := newHandler_ok hcfg
    rfl
  have hbucket := bucket_nil hnew (h.limiter.key client k)
  refine ⟨run_draws hk rfl trace hguards rfl (.refl _), ?_, ?_⟩
  · intro hroom
    obtain ⟨now, hnow⟩ := exists_start hmono
    have hmirror : Mirrors (h.limiter.key client k) h.limiter h.limiter now := by
      refine ⟨beside_new hnew now, .inr ⟨hbucket, ?_⟩⟩
      rw [hnew]
      exact fun b hb => absurd hb List.not_mem_nil
    exact run_mirrors hk rfl rfl trace hguards rfl hmirror hnow hmono hroom
  · intro n
    have hmono' := hmono.sublist (List.take_sublist n trace)
    obtain ⟨now, hnow⟩ := exists_start hmono'
    have hout : Outpaces (h.limiter.key client k) h.limiter h.limiter now 0 0 := by
      refine ⟨beside_new hnew now, le_refl 0, ?_⟩
      intro b hb
      rw [hbucket] at hb
      cases hb
    have hcount :=
      @run_outpaces cr k (h.limiter.key client k) hk rfl rfl (trace.take n) h h hguards rfl
      now 0 0 hout hnow hmono'
    rwa [Nat.zero_add, Nat.zero_add] at hcount

/-- A trace with two signed requests, and one of another address between them. -/
def labTrace : List Datagram :=
  [⟨labEnv, labRequest, labClient, 0, 0⟩,
    ⟨labEnv, 0x23 :: List.replicate 47 0, ⟨.v4 0xc0000210, 123⟩, 0, 1⟩,
    ⟨labEnv, labRequest, labClient, 0, 2⟩]

theorem labConfig_guards :
    labConfig.handler.Guards 1 (labConfig.handler.limiter.key labClient.addr 1) := by
  intro a _ hkey
  -- the bucket of an IPv4 address covers that address only
  have haddr : a.unmap = .v4 0xc0000290 := by
    have h := congrArg BucketKey.addr hkey
    unfold RateLimiter.key RateLimiter.spaceKey at h
    cases ha : a.unmap with
    | invalid =>
      rw [ha] at h
      cases h
    | v4 bits =>
      rw [ha] at h
      exact h
    | v6 bits zone =>
      rw [ha] at h
      cases h
  rw [haddr]
  decide

theorem flood_isolation_labTrace :
    (labConfig.handler.run labCrypto (labConfig.handler.onBucket labCrypto
        (labConfig.handler.limiter.key labClient.addr 1) (labTrace.take 3))).countP
      (·.admittedOn (labConfig.handler.limiter.key labClient.addr 1)) ≤
    (labConfig.handler.run labCrypto (labTrace.take 3)).countP
      (·.admittedOn (labConfig.handler.limiter.key labClient.addr 1)) :=
  (flood_isolation labCrypto labConfig labConfig.handler (if_neg (not_not.mpr (by decide +kernel)))
    labClient.addr 1 (by decide) labConfig_guards labTrace (by decide)).2.2 3

end Carillon.Server
