/-
# The rate limiter

A bounded table of token buckets.  The map and the list of the source hold the same
buckets; here they are one list, most recently used first, and a lookup searches it.
Times are monotonic readings in nanoseconds, and tokens are exact rational numbers.
-/
import Mathlib.Data.List.DropRight
import Carillon.Server.Address
import Carillon.Lib.Tokens
import Carillon.Time

namespace Carillon.Server

/-- `keyspace`: the budgets that one address can draw on. -/
inductive Keyspace where
  | service
  | crypto
  deriving DecidableEq

/-- `bucketKey`. -/
structure BucketKey where
  addr : Addr
  keyID : BitVec 32
  space : Keyspace
  deriving DecidableEq

/-- `clientBucket`. -/
structure ClientBucket where
  key : BucketKey
  tokens : ℚ
  updated : ℤ
  lastSeen : ℤ
  lastKoD : ℤ
  deriving DecidableEq

/-- `rateLimiter`. -/
structure RateLimiter where
  rate : ℚ
  burst : ℚ
  maxClients : ℕ
  v6Prefix : ℕ
  lru : List ClientBucket

/-- `DefaultMaxClients`. -/
def defaultMaxClients : ℕ := 65536

/-- `DefaultRateLimitV6Prefix`. -/
def defaultRateLimitV6Prefix : ℕ := 64

/-- `clientIdleExpiry`. -/
def clientIdleExpiry : ℤ := 60 * second

/-- `kodInterval`. -/
def kodInterval : ℤ := 4 * second

/-- `newRateLimiter`. -/
def newRateLimiter (rate burst : ℚ) (maxClients v6Prefix : ℤ) : RateLimiter where
  rate := rate
  burst := burst
  maxClients := if maxClients ≤ 0 then defaultMaxClients else maxClients.toNat
  v6Prefix := if v6Prefix ≤ 0 ∨ 128 < v6Prefix then defaultRateLimitV6Prefix else v6Prefix.toNat
  lru := []

/-- `spaceKey`: an IPv6 address is masked to the prefix that one bucket covers, which
also drops its zone. -/
def RateLimiter.spaceKey (l : RateLimiter) (addr : Addr) (keyID : BitVec 32) (space : Keyspace) :
    BucketKey :=
  let addr := match addr.unmap with
    | .v6 bits zone => if l.v6Prefix < 128 then .v6 (maskBits l.v6Prefix bits) "" else .v6 bits zone
    | addr => addr
  ⟨addr, keyID, space⟩

/-- `key`. -/
def RateLimiter.key (l : RateLimiter) (addr : Addr) (keyID : BitVec 32) : BucketKey :=
  l.spaceKey addr keyID .service

/-- `cryptoKey`. -/
def RateLimiter.cryptoKey (l : RateLimiter) (addr : Addr) : BucketKey :=
  l.spaceKey addr 0 .crypto

/-- `size`. -/
def RateLimiter.size (l : RateLimiter) : ℕ := l.lru.length

/-- The bucket has been idle for longer than `clientIdleExpiry`. -/
def ClientBucket.idle (now : ℤ) (b : ClientBucket) : Bool :=
  decide (clientIdleExpiry < sub now b.lastSeen)

/-- `expire`: idle buckets are removed from the back of the list. -/
def RateLimiter.expire (l : RateLimiter) (now : ℤ) : RateLimiter :=
  { l with lru := l.lru.rdropWhile (·.idle now) }

/-- `evictOldest`. -/
def RateLimiter.evictOldest (l : RateLimiter) : RateLimiter :=
  { l with lru := l.lru.dropLast }

/-- `clients[k]`. -/
def RateLimiter.bucket (l : RateLimiter) (k : BucketKey) : Option ClientBucket :=
  l.lru.find? (·.key == k)

/-- The bucket after the refill of a packet at `now`. -/
def ClientBucket.refill (b : ClientBucket) (rate burst : ℚ) (now : ℤ) : ClientBucket :=
  let elapsed : ℚ := sub now b.updated / 1000000000
  { b with
    tokens := if 0 < elapsed then min burst (b.tokens + elapsed * rate) else b.tokens
    updated := now
    lastSeen := now }

/-- The decision on a packet: whether it is allowed, and otherwise whether a kiss may
be sent. -/
def ClientBucket.draw (b : ClientBucket) (now : ℤ) : ClientBucket × Bool × Bool :=
  if 1 ≤ b.tokens then ({ b with tokens := b.tokens - 1 }, true, false)
  else if b.lastKoD = 0 ∨ kodInterval ≤ sub now b.lastKoD then
    ({ b with lastKoD := now }, false, true)
  else (b, false, false)

/-- The bucket that a packet at `now` meets, after the expiry. -/
def RateLimiter.meets (l : RateLimiter) (k : BucketKey) (now : ℤ) : ClientBucket :=
  match l.bucket k with
  | some b => b.refill l.rate l.burst now
  | none => { key := k, tokens := l.burst, updated := now, lastSeen := now, lastKoD := 0 }

/-- The other buckets, after a packet on `k`: a full table loses its oldest one. -/
def RateLimiter.others (l : RateLimiter) (k : BucketKey) : List ClientBucket :=
  match l.bucket k with
  | some _ => l.lru.eraseP (·.key == k)
  | none => if l.maxClients ≤ l.size then l.evictOldest.lru else l.lru

/-- `allow`. -/
def RateLimiter.allow (l : RateLimiter) (k : BucketKey) (now : ℤ) : RateLimiter × Bool × Bool :=
  let l := l.expire now
  let (b, allowed, sendKoD) := (l.meets k now).draw now
  ({ l with lru := b :: l.others k }, allowed, sendKoD)

/-! ## The parameters stay -/

/-- The two limiters are configured alike. -/
structure RateLimiter.SameConfig (l l' : RateLimiter) : Prop where
  rate : l'.rate = l.rate
  burst : l'.burst = l.burst
  maxClients : l'.maxClients = l.maxClients
  v6Prefix : l'.v6Prefix = l.v6Prefix

theorem RateLimiter.SameConfig.refl (l : RateLimiter) : l.SameConfig l :=
  ⟨rfl, rfl, rfl, rfl⟩

/-- Whatever is done on either side. -/
theorem RateLimiter.SameConfig.both {l a l' a' : RateLimiter} (h : l.SameConfig a)
    (hl : l.SameConfig l') (ha : a.SameConfig a') : l'.SameConfig a' := by
  constructor
  · rw [hl.rate, ha.rate, h.rate]
  · rw [hl.burst, ha.burst, h.burst]
  · rw [hl.maxClients, ha.maxClients, h.maxClients]
  · rw [hl.v6Prefix, ha.v6Prefix, h.v6Prefix]

theorem allow_sameConfig (l : RateLimiter) (k : BucketKey) (now : ℤ) :
    l.SameConfig (l.allow k now).1 :=
  ⟨rfl, rfl, rfl, rfl⟩

theorem RateLimiter.SameConfig.spaceKey {l l' : RateLimiter} (h : l.SameConfig l') (addr : Addr)
    (keyID : BitVec 32) (space : Keyspace) :
    l'.spaceKey addr keyID space = l.spaceKey addr keyID space := by
  unfold RateLimiter.spaceKey
  rw [h.v6Prefix]

/-! ## One packet on a bucket -/

variable {now : ℤ} {b : ClientBucket}

theorem idle_iff (h : b.lastSeen ≤ now) :
    b.idle now = true ↔ clientIdleExpiry < now - b.lastSeen := by
  unfold ClientBucket.idle sub maxDuration clientIdleExpiry second
  rw [decide_eq_true_eq]
  omega

/-- An idle bucket stays idle. -/
theorem idle_later {now now' : ℤ} (hseen : b.lastSeen ≤ now) (hle : now ≤ now')
    (h : b.idle now = true) : b.idle now' = true := by
  rw [idle_iff hseen] at h
  rw [idle_iff (hseen.trans hle)]
  omega

/-- A packet takes a token if there is one, and is admitted then. -/
theorem draw_fields (b : ClientBucket) (now : ℤ) :
    (b.draw now).1.key = b.key ∧ (b.draw now).1.updated = b.updated ∧
      (b.draw now).1.lastSeen = b.lastSeen ∧ (b.draw now).1.tokens = Tokens.spend b.tokens ∧
      (b.draw now).2.1 = decide (1 ≤ b.tokens) := by
  unfold ClientBucket.draw Tokens.spend
  by_cases h : 1 ≤ b.tokens
  · rw [if_pos h, if_pos h, decide_eq_true h]
    exact ⟨rfl, rfl, rfl, rfl, rfl⟩
  · rw [if_neg h, if_neg h, decide_eq_false h]
    split_ifs <;> exact ⟨rfl, rfl, rfl, rfl, rfl⟩

variable {l : RateLimiter}

theorem bucket_key {k : BucketKey} (h : l.bucket k = some b) :
    b.key = k := by
  have hbeq := List.find?_some h
  exact eq_of_beq hbeq

/-- The bucket that a packet meets is the one of its key, and was seen now. -/
theorem meets_fields (l : RateLimiter) (k : BucketKey) (now : ℤ) :
    (l.meets k now).key = k ∧ (l.meets k now).updated = now ∧ (l.meets k now).lastSeen = now := by
  unfold RateLimiter.meets
  split
  · rename_i b hb
    have hkey : b.key = k := bucket_key hb
    exact ⟨hkey, rfl, rfl⟩
  · exact ⟨rfl, rfl, rfl⟩

/-! ## The table -/

theorem allow_lru (l : RateLimiter) (k : BucketKey) (now : ℤ) :
    (l.allow k now).1.lru = (((l.expire now).meets k now).draw now).1 :: (l.expire now).others k :=
  rfl

theorem find_key_pos {a : ClientBucket} {k : BucketKey} (h : a.key = k) (bs : List ClientBucket) :
    (a :: bs).find? (·.key == k) = some a := by
  simp [h]

theorem find_key_neg {a : ClientBucket} {k : BucketKey} (h : a.key ≠ k) (bs : List ClientBucket) :
    (a :: bs).find? (·.key == k) = bs.find? (·.key == k) := by
  simp [h]

/-- The buckets are in the order in which they were last seen, up to the time `now`. -/
structure RateLimiter.Ordered (l : RateLimiter) (now : ℤ) : Prop where
  sorted : l.lru.Pairwise fun a b => b.lastSeen ≤ a.lastSeen
  seen : ∀ b ∈ l.lru, b.lastSeen ≤ now

theorem ordered_nil (h : l.lru = []) (now : ℤ) : l.Ordered now := by
  constructor
  · rw [h]
    exact List.Pairwise.nil
  · rw [h]
    exact fun b hb => absurd hb List.not_mem_nil

theorem bucket_nil (h : l.lru = []) (k : BucketKey) : l.bucket k = none := by
  unfold RateLimiter.bucket
  rw [h]
  rfl

/-- A time before all of a trace. -/
theorem exists_start {α : Type*} {time : α → ℤ} {xs : List α}
    (hmono : xs.Pairwise fun x y => time x ≤ time y) : ∃ now, ∀ x ∈ xs, now ≤ time x := by
  cases xs with
  | nil => exact ⟨0, fun x hx => absurd hx List.not_mem_nil⟩
  | cons x xs =>
    refine ⟨time x, ?_⟩
    intro y hy
    rcases List.mem_cons.mp hy with rfl | hy
    · exact le_refl _
    · exact (List.pairwise_cons.mp hmono).1 y hy

theorem RateLimiter.Ordered.later {now now' : ℤ} (h : l.Ordered now) (hle : now ≤ now') :
    l.Ordered now' :=
  ⟨h.sorted, fun b hb => (h.seen b hb).trans hle⟩

/-- What is older than an idle bucket is idle. -/
theorem idle_of_le {a b : ClientBucket} (hab : b.lastSeen ≤ a.lastSeen) (ha : a.lastSeen ≤ now)
    (h : a.idle now = true) : b.idle now = true := by
  rw [idle_iff ha] at h
  rw [idle_iff (hab.trans ha)]
  omega

/-- **Expiry removes exactly the idle buckets**, though it looks at the oldest only. -/
theorem expire_lru (h : l.Ordered now) :
    (l.expire now).lru = l.lru.filter fun b => !b.idle now := by
  show l.lru.rdropWhile (·.idle now) = _
  obtain ⟨hsorted, hseen⟩ := h
  generalize l.lru = bs at hsorted hseen
  -- from the back: either the last one is idle, or none is
  induction bs using List.reverseRecOn with
  | nil => rfl
  | append_singleton bs b ih =>
    rw [List.pairwise_append] at hsorted
    by_cases hb : b.idle now = true
    · rw [List.rdropWhile_concat_pos _ _ _ hb, List.filter_append, List.filter_singleton]
      rw [ih hsorted.1 fun a ha => hseen a (List.mem_append_left _ ha)]
      simp [hb]
    · rw [List.rdropWhile_concat_neg _ _ _ hb]
      refine (List.filter_eq_self.mpr ?_).symm
      intro a ha
      rcases List.mem_append.mp ha with ha | ha
      · have hab := hsorted.2.2 a ha b List.mem_cons_self
        have hnot : ¬a.idle now = true :=
          fun hidle => hb (idle_of_le hab (hseen a (List.mem_append_left _ ha)) hidle)
        simpa using hnot
      · rw [List.mem_singleton.mp ha]
        simpa using hb

theorem expire_ordered (h : l.Ordered now) : (l.expire now).Ordered now := by
  refine ⟨?_, ?_⟩
  · rw [expire_lru h]
    exact h.sorted.filter _
  · intro b hb
    rw [expire_lru h] at hb
    exact h.seen b (List.mem_filter.mp hb).1

/-- Seen through one key, expiry removes the bucket if it is idle. -/
theorem expire_bucket (h : l.Ordered now) (k : BucketKey) :
    (l.expire now).bucket k = (l.bucket k).filter fun b => !b.idle now := by
  unfold RateLimiter.bucket
  rw [expire_lru h]
  obtain ⟨hsorted, hseen⟩ := h
  generalize l.lru = bs at hsorted hseen
  induction bs with
  | nil => rfl
  | cons a bs ih =>
    rw [List.pairwise_cons] at hsorted
    have hrest := ih hsorted.2 fun b hb => hseen b (List.mem_cons_of_mem a hb)
    by_cases hidle : a.idle now = true
    · -- everything behind an idle bucket is idle
      have hnil : (a :: bs).filter (fun b => !b.idle now) = [] := by
        refine List.filter_eq_nil_iff.mpr ?_
        intro b hb
        rcases List.mem_cons.mp hb with rfl | hb
        · simp [hidle]
        · simp [idle_of_le (hsorted.1 b hb) (hseen a List.mem_cons_self) hidle]
      rw [hnil, List.find?_nil]
      symm
      rw [Option.filter_eq_none_iff]
      intro b hb
      have hmem := List.mem_of_find?_eq_some hb
      have hno := List.filter_eq_nil_iff.mp hnil b hmem
      simpa using hno
    · rw [List.filter_cons_of_pos (by simpa using hidle)]
      by_cases hkey : a.key = k
      · rw [find_key_pos hkey, find_key_pos hkey, Option.filter_some, if_pos (by simpa using hidle)]
      · rw [find_key_neg hkey, find_key_neg hkey, hrest]

/-- The bucket of the packet comes to the front. -/
theorem allow_bucket (l : RateLimiter) (k : BucketKey) (now : ℤ) :
    (l.allow k now).1.bucket k = some (((l.expire now).meets k now).draw now).1 := by
  have hkey : (((l.expire now).meets k now).draw now).1.key = k := by
    rw [(draw_fields _ now).1, (meets_fields _ k now).1]
  unfold RateLimiter.bucket
  rw [allow_lru, find_key_pos hkey]

/-- The other buckets stay as they were after the expiry, but for the oldest one if the
table is full. -/
theorem allow_bucket_ne {k k' : BucketKey} (hne : k ≠ k') (l : RateLimiter) (now : ℤ) :
    (l.allow k now).1.bucket k' = (l.expire now).bucket k' ∨
      l.maxClients ≤ (l.expire now).size ∧ (l.allow k now).1.bucket k' = none := by
  have hkey : (((l.expire now).meets k now).draw now).1.key = k := by
    rw [(draw_fields _ now).1, (meets_fields _ k now).1]
  have hcons : (l.allow k now).1.bucket k' =
      ((l.expire now).others k).find? (·.key == k') := by
    unfold RateLimiter.bucket
    rw [allow_lru, find_key_neg (by rw [hkey]; exact hne)]
  rw [hcons]
  unfold RateLimiter.others
  split
  · left
    unfold RateLimiter.bucket
    generalize (l.expire now).lru = bs
    induction bs with
    | nil => rfl
    | cons a bs ih =>
      by_cases ha : a.key = k
      · rw [List.eraseP_cons_of_pos (by simpa using ha), find_key_neg (by rw [ha]; exact hne)]
      · rw [List.eraseP_cons_of_neg (by simpa using ha)]
        by_cases ha' : a.key = k'
        · rw [find_key_pos ha', find_key_pos ha']
        · rw [find_key_neg ha', find_key_neg ha', ih]
  · split_ifs with hfull
    · cases hfind : ((l.expire now).evictOldest.lru).find? (·.key == k') with
      | none => exact .inr ⟨hfull, rfl⟩
      | some b =>
        left
        exact ((List.dropLast_prefix _).find?_eq_some hfind).symm
    · exact .inl rfl

theorem others_sublist (l : RateLimiter) (k : BucketKey) : (l.others k).Sublist l.lru := by
  unfold RateLimiter.others
  split
  · exact List.eraseP_sublist
  · split_ifs
    · exact List.dropLast_sublist _
    · exact List.Sublist.refl _

/-- A bucket that was seen now comes to the front. -/
theorem ordered_front (h : l.Ordered now) (hb : b.lastSeen = now) (k : BucketKey) :
    ({ l with lru := b :: l.others k } : RateLimiter).Ordered now := by
  have hsub := others_sublist l k
  constructor
  · refine List.pairwise_cons.mpr ⟨?_, h.sorted.sublist hsub⟩
    intro c hc
    rw [hb]
    exact h.seen c (hsub.subset hc)
  · intro c hc
    rcases List.mem_cons.mp hc with rfl | hc
    · exact le_of_eq hb
    · exact h.seen c (hsub.subset hc)

theorem allow_ordered (h : l.Ordered now) (k : BucketKey) :
    (l.allow k now).1.Ordered now := by
  have hhead : (((l.expire now).meets k now).draw now).1.lastSeen = now := by
    rw [(draw_fields _ now).2.2.1, (meets_fields _ k now).2.2]
  exact ordered_front (expire_ordered h) hhead k

/-- A draw does not make the table smaller, apart from the expiry. -/
theorem size_le_allow (l : RateLimiter) (k : BucketKey) (now : ℤ) :
    (l.expire now).size ≤ (l.allow k now).1.size := by
  unfold RateLimiter.size
  rw [allow_lru, List.length_cons]
  unfold RateLimiter.others
  split
  · rename_i b hb
    rw [List.length_eraseP_of_mem (List.mem_of_find?_eq_some hb) (List.find?_some hb)]
    omega
  · split_ifs
    · show _ ≤ (l.expire now).lru.dropLast.length + 1
      rw [List.length_dropLast]
      omega
    · omega

/-- After a draw there is nothing to expire at that time. -/
theorem expire_allow (h : l.Ordered now) (k : BucketKey) :
    ((l.allow k now).1.expire now).lru = (l.allow k now).1.lru := by
  have hhead : (((l.expire now).meets k now).draw now).1.lastSeen = now := by
    rw [(draw_fields _ now).2.2.1, (meets_fields _ k now).2.2]
  rw [expire_lru (allow_ordered h k), List.filter_eq_self, allow_lru]
  intro b hb
  rcases List.mem_cons.mp hb with rfl | hb
  · have hidle : ¬ClientBucket.idle now (((l.expire now).meets k now).draw now).1 = true := by
      rw [idle_iff (le_of_eq hhead), hhead, sub_self]
      decide
    simpa using hidle
  · have hmem := (others_sublist (l.expire now) k).subset hb
    rw [expire_lru h] at hmem
    exact (List.mem_filter.mp hmem).2

end Carillon.Server
