/-
# The map and the list of the rate limiter

`RateLimiter` keeps the buckets in one list.  The source has a map from keys to buckets and a
list in the order of use, both of pointers, and changes them together; a bucket knows its
element of the list.  This is that table: an operation that follows a pointer to nothing has no
result, and neither has a loop that goes on for longer than the list.  Tokens are rounded as
the arithmetic of the machine rounds them, whichever that is.

* `allow_simulates` : a call returns, and does to the table what the list model does;
* `limiter_representation` : what holds of the table after any calls in the order of their times.
-/
import Carillon.Lib.Linked
import Carillon.Lib.Runs
import Carillon.Server.RateLimit

namespace Carillon.Server

open Linked (Coherent)
open Tokens (Rounding Within)

/-! ## Rounded tokens -/

/-- `Seconds` of a duration. -/
def durationSeconds (R : Rounding ℚ) (d : ℤ) : ℚ :=
  R.fl (R.fl (d.tdiv second : ℤ) + R.fl (R.fl (d.tmod second : ℤ) / 1000000000))

/-- `ClientBucket.refill`, rounded. -/
def ClientBucket.refillBy (R : Rounding ℚ) (b : ClientBucket) (rate burst : ℚ) (now : ℤ) :
    ClientBucket :=
  let elapsed := durationSeconds R (sub now b.updated)
  { b with
    tokens := if 0 < elapsed then min burst (R.fl (b.tokens + R.fl (elapsed * rate))) else b.tokens
    updated := now
    lastSeen := now }

/-- `ClientBucket.draw`, rounded. -/
def ClientBucket.drawBy (R : Rounding ℚ) (b : ClientBucket) (now : ℤ) :
    ClientBucket × Bool × Bool :=
  if 1 ≤ b.tokens then ({ b with tokens := R.fl (b.tokens - 1) }, true, false)
  else if b.lastKoD = 0 ∨ kodInterval ≤ sub now b.lastKoD then
    ({ b with lastKoD := now }, false, true)
  else (b, false, false)

/-- The bucket of a client that is not in the table. -/
def newBucket (k : BucketKey) (burst : ℚ) (now : ℤ) : ClientBucket where
  key := k
  tokens := burst
  updated := now
  lastSeen := now
  lastKoD := 0

/-- `RateLimiter.meets`, rounded. -/
def RateLimiter.meetsBy (R : Rounding ℚ) (l : RateLimiter) (k : BucketKey) (now : ℤ) :
    ClientBucket :=
  match l.bucket k with
  | some b => b.refillBy R l.rate l.burst now
  | none => newBucket k l.burst now

/-- `RateLimiter.allow`, rounded. -/
def RateLimiter.allowBy (R : Rounding ℚ) (l : RateLimiter) (k : BucketKey) (now : ℤ) :
    RateLimiter × Bool × Bool :=
  let l := l.expire now
  let (b, allowed, sendKoD) := (l.meetsBy R k now).drawBy R now
  ({ l with lru := b :: l.others k }, allowed, sendKoD)

/-- A packet leaves the key and the times of its bucket. -/
theorem drawBy_fields (R : Rounding ℚ) (b : ClientBucket) (now : ℤ) :
    (b.drawBy R now).1.key = b.key ∧ (b.drawBy R now).1.lastSeen = b.lastSeen := by
  unfold ClientBucket.drawBy
  split_ifs <;> exact ⟨rfl, rfl⟩

theorem meetsBy_fields (R : Rounding ℚ) (l : RateLimiter) (k : BucketKey) (now : ℤ) :
    (l.meetsBy R k now).key = k ∧ (l.meetsBy R k now).lastSeen = now := by
  unfold RateLimiter.meetsBy
  split
  · rename_i b hb
    have hkey : b.key = k := bucket_key hb
    exact ⟨hkey, rfl⟩
  · exact ⟨rfl, rfl⟩

/-- Without rounding the seconds are those of the list model. -/
theorem durationSeconds_exact (d : ℤ) : durationSeconds Rounding.exact d = d / 1000000000 := by
  have hsplit : ((d.tmod second + second * d.tdiv second : ℤ) : ℚ) = d := by
    rw [Int.tmod_add_mul_tdiv]
  have hsecond : (second : ℚ) = 1000000000 := by norm_num [second]
  push_cast at hsplit
  rw [hsecond] at hsplit
  show ((d.tdiv second : ℤ) : ℚ) + (d.tmod second : ℤ) / 1000000000 = _
  rw [← hsplit]
  ring

/-- Without rounding it is the limiter of the model. -/
theorem allowBy_exact (l : RateLimiter) (k : BucketKey) (now : ℤ) :
    l.allowBy Rounding.exact k now = l.allow k now := by
  have hmeets : (l.expire now).meetsBy Rounding.exact k now = (l.expire now).meets k now := by
    unfold RateLimiter.meetsBy RateLimiter.meets
    cases (l.expire now).bucket k with
    | none => rfl
    | some b =>
      dsimp only
      unfold ClientBucket.refillBy ClientBucket.refill
      rw [durationSeconds_exact]
      rfl
  rw [RateLimiter.allowBy, hmeets]
  rfl

/-! ## What a call keeps -/

/-- The list model is in order, has room and no bucket that is too full. -/
structure RateLimiter.Inv (R : Rounding ℚ) (l : RateLimiter) (now : ℤ) : Prop where
  ordered : l.Ordered now
  size : l.size ≤ l.maxClients
  within : ∀ b ∈ l.lru, Within R l.burst b.tokens
  rate : 0 ≤ l.rate
  burst : Within R l.burst l.burst
  room : 1 ≤ l.maxClients

variable {b : ClientBucket}

section

variable {R : Rounding ℚ} {l : RateLimiter} {now now' : ℤ}

theorem drawBy_within {burst : ℚ} (h : Within R burst b.tokens) (now : ℤ) :
    Within R burst (b.drawBy R now).1.tokens := by
  unfold ClientBucket.drawBy
  split_ifs with htokens
  · exact h.sub_one htokens
  · exact h
  · exact h

theorem refillBy_within {rate burst : ℚ} (h : Within R burst b.tokens) (hrate : 0 ≤ rate)
    (hburst : Within R burst burst) (now : ℤ) :
    Within R burst (b.refillBy R rate burst now).tokens := by
  unfold ClientBucket.refillBy
  dsimp only
  split_ifs with helapsed
  · exact h.refill hburst.fl_eq (R.nonneg (mul_nonneg helapsed.le hrate))
  · exact h

theorem RateLimiter.Inv.meetsBy (h : l.Inv R now) (k : BucketKey) (now' : ℤ) :
    Within R l.burst (l.meetsBy R k now').tokens := by
  unfold RateLimiter.meetsBy
  split
  · rename_i b hb
    exact refillBy_within (h.within b (List.mem_of_find?_eq_some hb)) h.rate h.burst now'
  · exact h.burst

theorem RateLimiter.Inv.later (h : l.Inv R now) (hle : now ≤ now') : l.Inv R now' :=
  { h with ordered := h.ordered.later hle }

theorem RateLimiter.Inv.expire (h : l.Inv R now) (hle : now ≤ now') :
    (l.expire now').Inv R now' := by
  have hordered := h.ordered.later hle
  have hlru := expire_lru hordered
  refine ⟨expire_ordered hordered, ?_, ?_, h.rate, h.burst, h.room⟩
  · have hlength : (l.expire now').size ≤ l.size := by
      rw [RateLimiter.size, hlru]
      exact List.length_filter_le _ _
    exact hlength.trans h.size
  · intro b hb
    rw [hlru] at hb
    exact h.within b (List.mem_of_mem_filter hb)

/-- There is a place for one more bucket. -/
theorem others_length (hsize : l.size ≤ l.maxClients) (hroom : 1 ≤ l.maxClients) (k : BucketKey) :
    (l.others k).length + 1 ≤ l.maxClients := by
  unfold RateLimiter.others
  split
  · rename_i b hb
    have hpos := List.length_pos_of_mem (List.mem_of_find?_eq_some hb)
    rw [List.length_eraseP_of_mem (List.mem_of_find?_eq_some hb) (List.find?_some hb)]
    unfold RateLimiter.size at hsize
    omega
  · split_ifs with hfull
    · show l.lru.dropLast.length + 1 ≤ l.maxClients
      rw [List.length_dropLast]
      unfold RateLimiter.size at hsize
      omega
    · exact not_le.mp hfull

/-- A call keeps the invariant. -/
theorem RateLimiter.Inv.allowBy (h : l.Inv R now) (hle : now ≤ now') (k : BucketKey) :
    (l.allowBy R k now').1.Inv R now' := by
  have hexpired := h.expire hle
  have hseen : (((l.expire now').meetsBy R k now').drawBy R now').1.lastSeen = now' := by
    rw [(drawBy_fields R _ now').2, (meetsBy_fields R _ k now').2]
  refine ⟨ordered_front hexpired.ordered hseen k, ?_, ?_, h.rate, h.burst, h.room⟩
  · exact others_length hexpired.size hexpired.room k
  · intro b hb
    rcases List.mem_cons.mp hb with rfl | hb
    · exact drawBy_within (hexpired.meetsBy k now') now'
    · exact hexpired.within b ((others_sublist _ k).subset hb)

end

/-! ## The table -/

/-- `rateLimiter`: `clients` is the index of the table, and `lru` its list. -/
structure LimiterTable where
  rate : ℚ
  burst : ℚ
  maxClients : ℕ
  v6Prefix : ℕ
  table : Linked.Table BucketKey ClientBucket

/-- `newRateLimiter`. -/
def newLimiterTable (rate burst : ℚ) (maxClients v6Prefix : ℤ) : LimiterTable where
  rate := rate
  burst := burst
  maxClients := if maxClients ≤ 0 then defaultMaxClients else maxClients.toNat
  v6Prefix := if v6Prefix ≤ 0 ∨ 128 < v6Prefix then defaultRateLimitV6Prefix else v6Prefix.toNat
  table := Linked.Table.empty

namespace LimiterTable

/-- `size`. -/
def size (t : LimiterTable) : ℕ := t.table.index.entries.length

/-- `remove`. -/
def remove (t : LimiterTable) (p : ℕ) : Option LimiterTable := do
  let table ← t.table.remove ClientBucket.key p
  some { t with table := table }

/-- The loop of `expire`, for so many rounds. -/
def expireLoop (now : ℤ) : ℕ → LimiterTable → Option LimiterTable
  | 0, _ => none
  | fuel + 1, t =>
    match t.table.back with
    | none => some t
    | some p => do
      let b ← t.table.load p
      if sub now b.lastSeen ≤ clientIdleExpiry then some t
      else
        let t ← t.remove p
        expireLoop now fuel t

/-- `expire`. -/
def expire (t : LimiterTable) (now : ℤ) : Option LimiterTable :=
  expireLoop now (t.table.list.length + 1) t

/-- `evictOldest`. -/
def evictOldest (t : LimiterTable) : Option LimiterTable :=
  match t.table.back with
  | none => some t
  | some p => t.remove p

/-- A full table loses its oldest bucket. -/
def makeRoom (t : LimiterTable) : Option LimiterTable :=
  if t.maxClients ≤ t.size then t.evictOldest else some t

/-- The bucket of a key, made or refilled and at the front, with the table that has it. -/
def bucketFor (R : Rounding ℚ) (t : LimiterTable) (k : BucketKey) (now : ℤ) :
    Option (LimiterTable × ℕ) :=
  match t.table.index.lookup k with
  | none => do
    let t ← t.makeRoom
    some ({ t with table := t.table.pushFront ClientBucket.key (newBucket k t.burst now) },
      t.table.next)
  | some p => do
    let b ← t.table.load p
    let table ← t.table.assign p (b.refillBy R t.rate t.burst now)
    let table ← table.moveToFront p
    some ({ t with table := table }, p)

/-- `allow`. -/
def allow (R : Rounding ℚ) (t : LimiterTable) (k : BucketKey) (now : ℤ) :
    Option (LimiterTable × Bool × Bool) := do
  let t ← t.expire now
  let (t, p) ← t.bucketFor R k now
  let b ← t.table.load p
  let (b, allowed, sendKoD) := b.drawBy R now
  let table ← t.table.assign p b
  some ({ t with table := table }, allowed, sendKoD)

def step (R : Rounding ℚ) (t : LimiterTable) (call : BucketKey × ℤ) : Option LimiterTable :=
  (t.allow R call.1 call.2).map Prod.fst

/-- The list that the table stands for. -/
def limiter (t : LimiterTable) : RateLimiter where
  rate := t.rate
  burst := t.burst
  maxClients := t.maxClients
  v6Prefix := t.v6Prefix
  lru := t.table.nodes

/-- The map and the list hold the same buckets, each once and under its own key. -/
structure SameBuckets (t : LimiterTable) : Prop where
  perm : (t.table.index.entries.map Sigma.snd).Perm (t.table.list.map Linked.Element.node)
  once : (t.table.list.map Linked.Element.node).Nodup
  keyed : ∀ k p, t.table.index.lookup k = some p → ∃ b, t.table.load p = some b ∧ b.key = k

/-! ## The table stands for the list -/

variable {t : LimiterTable}

/-- The table is as the list model has it. -/
def Mirrors (t : LimiterTable) (l : RateLimiter) : Prop :=
  Coherent ClientBucket.key t.table ∧ t.limiter = l

/-- The last bucket is removed. -/
theorem remove_back (h : Coherent ClientBucket.key t.table) {bs : List ClientBucket}
    (hnodes : t.table.nodes = bs ++ [b]) :
    ∃ p t', t.table.back = some p ∧ t.table.load p = some b ∧ t.remove p = some t' ∧
      t'.Mirrors { t.limiter with lru := bs } := by
  obtain ⟨p, hback, hload, hk⟩ := h.back_concat hnodes
  obtain ⟨table, hremove, htable, hrest⟩ := h.nodes_remove hk
  have hnodup := h.nodup_keys
  rw [hnodes] at hnodup hrest
  rw [Linked.filter_concat hnodup] at hrest
  refine ⟨p, { t with table := table }, hback, hload, ?_, htable, ?_⟩
  · rw [remove, hremove]
    rfl
  · rw [limiter, hrest]
    rfl

theorem expireLoop_mirrors (h : Coherent ClientBucket.key t.table) (now : ℤ) {fuel : ℕ}
    (hfuel : t.table.nodes.length < fuel) :
    ∃ t', expireLoop now fuel t = some t' ∧ t'.Mirrors (t.limiter.expire now) := by
  induction fuel generalizing t with
  | zero => omega
  | succ fuel ih =>
    rcases List.eq_nil_or_concat t.table.nodes with hnil | ⟨bs, b, hconcat⟩
    · refine ⟨t, ?_, h, ?_⟩
      · rw [expireLoop, h.back_nil hnil]
      · rw [RateLimiter.expire, limiter, hnil]
        rfl
    · rw [List.concat_eq_append] at hconcat
      obtain ⟨p, t', hback, hload, hremove, ht', hlimiter⟩ := remove_back h hconcat
      rw [expireLoop, hback]
      dsimp only
      rw [hload, Option.bind_eq_bind, Option.bind_some]
      by_cases hle : sub now b.lastSeen ≤ clientIdleExpiry
      · -- the oldest bucket is not idle, and the loop ends
        have hidle : ¬b.idle now = true := by
          rw [ClientBucket.idle, decide_eq_true_eq]
          exact not_lt.mpr hle
        refine ⟨t, by rw [if_pos hle], h, ?_⟩
        rw [RateLimiter.expire, limiter, hconcat, List.rdropWhile_concat_neg _ _ _ hidle]
      · have hidle : b.idle now = true := by
          rw [ClientBucket.idle, decide_eq_true_eq]
          exact not_le.mp hle
        have hnodes : t'.table.nodes = bs := congrArg RateLimiter.lru hlimiter
        have hlength : t'.table.nodes.length < fuel := by
          rw [hconcat, List.length_append, List.length_singleton] at hfuel
          rw [hnodes]
          omega
        obtain ⟨t'', hloop, ht'', hlimiter'⟩ := ih ht' hlength
        refine ⟨t'', ?_, ht'', ?_⟩
        · rw [if_neg hle, hremove]
          exact hloop
        · rw [hlimiter', hlimiter, RateLimiter.expire, RateLimiter.expire]
          dsimp only
          rw [limiter, hconcat, List.rdropWhile_concat_pos _ _ _ hidle]

/-- The table expires as the limiter does. -/
theorem expire_mirrors (h : Coherent ClientBucket.key t.table) (now : ℤ) :
    ∃ t', t.expire now = some t' ∧ t'.Mirrors (t.limiter.expire now) := by
  refine expireLoop_mirrors h now ?_
  rw [h.length_nodes]
  exact Nat.lt_succ_self _

/-- The table evicts as the limiter does. -/
theorem evictOldest_mirrors (h : Coherent ClientBucket.key t.table) :
    ∃ t', t.evictOldest = some t' ∧ t'.Mirrors t.limiter.evictOldest := by
  rcases List.eq_nil_or_concat t.table.nodes with hnil | ⟨bs, b, hconcat⟩
  · refine ⟨t, ?_, h, ?_⟩
    · rw [evictOldest, h.back_nil hnil]
    · rw [RateLimiter.evictOldest, limiter, hnil]
      rfl
  · rw [List.concat_eq_append] at hconcat
    obtain ⟨p, t', hback, -, hremove, hmirrors⟩ := remove_back h hconcat
    refine ⟨t', ?_, ?_⟩
    · rw [evictOldest, hback]
      exact hremove
    · rw [RateLimiter.evictOldest]
      have hlast : t.limiter.lru.dropLast = bs := by
        show t.table.nodes.dropLast = bs
        rw [hconcat, List.dropLast_concat]
      rw [hlast]
      exact hmirrors

/-- What the map has for a key. -/
theorem bucket_limiter (h : Coherent ClientBucket.key t.table) (k : BucketKey) :
    t.limiter.bucket k = (t.table.index.lookup k).bind t.table.load :=
  h.find_nodes k

theorem size_limiter (h : Coherent ClientBucket.key t.table) : t.size = t.limiter.size :=
  h.length_index

/-- The table makes room as the limiter does. -/
theorem makeRoom_mirrors (h : Coherent ClientBucket.key t.table) {k : BucketKey}
    (hbucket : t.limiter.bucket k = none) :
    ∃ t', t.makeRoom = some t' ∧ t'.Mirrors { t.limiter with lru := t.limiter.others k } := by
  rw [makeRoom, size_limiter h, RateLimiter.others, hbucket]
  dsimp only
  by_cases hfull : t.maxClients ≤ t.limiter.size
  · have hfull' : t.limiter.maxClients ≤ t.limiter.size := hfull
    rw [if_pos hfull, if_pos hfull']
    exact evictOldest_mirrors h
  · have hfull' : ¬t.limiter.maxClients ≤ t.limiter.size := hfull
    rw [if_neg hfull, if_neg hfull']
    exact ⟨t, rfl, h, rfl⟩

/-- A bucket for a key that has none. -/
theorem pushFront_mirrors (h : Coherent ClientBucket.key t.table)
    (hk : t.table.index.lookup b.key = none) :
    ({ t with table := t.table.pushFront ClientBucket.key b } : LimiterTable).Mirrors
      { t.limiter with lru := b :: t.limiter.lru } := by
  refine ⟨h.coherent_pushFront hk, ?_⟩
  rw [limiter]
  dsimp only
  rw [h.nodes_pushFront b]
  rfl

/-- The bucket that a packet meets comes to the front. -/
theorem bucketFor_mirrors (R : Rounding ℚ) (h : Coherent ClientBucket.key t.table) (k : BucketKey)
    (now : ℤ) :
    ∃ t' p, t.bucketFor R k now = some (t', p) ∧ t'.table.index.lookup k = some p ∧
      t'.Mirrors { t.limiter with lru := t.limiter.meetsBy R k now :: t.limiter.others k } := by
  have hbucket := bucket_limiter h k
  cases hk : t.table.index.lookup k with
  | none =>
    rw [hk, Option.bind_none] at hbucket
    obtain ⟨t₁, ht₁, hcoherent, hlimiter⟩ := makeRoom_mirrors h hbucket
    have hnodes : t₁.table.nodes = t.limiter.others k := congrArg RateLimiter.lru hlimiter
    have hburst : t₁.burst = t.burst := congrArg RateLimiter.burst hlimiter
    have hnone : t₁.table.index.lookup (newBucket k t₁.burst now).key = none := by
      refine hcoherent.lookup_none.mpr fun b hb => ?_
      rw [hnodes] at hb
      exact h.lookup_none.mp hk b ((others_sublist t.limiter k).subset hb)
    have hlookup : (t₁.table.pushFront ClientBucket.key (newBucket k t₁.burst now)).index.lookup k =
        some t₁.table.next := Coherent.lookup_pushFront t₁.table _
    obtain ⟨hpushed, hlimiter'⟩ := pushFront_mirrors hcoherent hnone
    refine ⟨{ t₁ with table := t₁.table.pushFront ClientBucket.key (newBucket k t₁.burst now) },
      t₁.table.next, ?_, hlookup, hpushed, ?_⟩
    · simp only [bucketFor, hk, ht₁, Option.bind_eq_bind, Option.bind_some]
    · rw [hlimiter', hlimiter, hburst, RateLimiter.meetsBy, hbucket]
      rfl
  | some p =>
    obtain ⟨b, i, hstore, hkey, -, -⟩ := h.lookup_some hk
    have hload : t.table.load p = some b := Linked.load_of_store hstore
    rw [hk, Option.bind_some, hload] at hbucket
    obtain ⟨t₁, table, hassign, hmove, hcoherent, hnodes, hlookup⟩ :=
      h.nodes_touch (b := b.refillBy R t.rate t.burst now) hk hkey
    refine ⟨{ t with table := table }, p, ?_, hlookup, hcoherent, ?_⟩
    · simp only [bucketFor, hk, hload, hassign, hmove, Option.bind_eq_bind, Option.bind_some]
    · have hothers : t.limiter.others k = t.table.nodes.filter fun c => c.key ≠ k := by
        rw [RateLimiter.others, hbucket]
        exact Linked.eraseP_eq_filter h.nodup_keys k
      rw [limiter, hothers, RateLimiter.meetsBy, hbucket]
      dsimp only
      rw [hnodes]
      rfl

/-- **A call to `allow` returns**, and does to the table what the list model does. -/
theorem allow_simulates (R : Rounding ℚ) (h : Coherent ClientBucket.key t.table) (k : BucketKey)
    (now : ℤ) :
    ∃ t', t.allow R k now = some (t', (t.limiter.allowBy R k now).2) ∧
      t'.Mirrors (t.limiter.allowBy R k now).1 := by
  obtain ⟨t₁, hexpire, h₁, hlimiter₁⟩ := expire_mirrors h now
  obtain ⟨t₂, p, hfor, hlookup, h₂, hlimiter₂⟩ := bucketFor_mirrors R h₁ k now
  rw [hlimiter₁] at hlimiter₂
  have hnodes : t₂.table.nodes =
      (t.limiter.expire now).meetsBy R k now :: (t.limiter.expire now).others k :=
    congrArg RateLimiter.lru hlimiter₂
  have hkey := (meetsBy_fields R (t.limiter.expire now) k now).1
  have hlookup' : t₂.table.index.lookup ((t.limiter.expire now).meetsBy R k now).key = some p := by
    rw [hkey]
    exact hlookup
  have hload := h₂.load_of_mem hlookup' (hnodes ▸ List.mem_cons_self)
  have hdrawn := (drawBy_fields R ((t.limiter.expire now).meetsBy R k now) now).1
  obtain ⟨table, hassign, h₃, hnodes₃⟩ := h₂.nodes_assign_head hnodes hlookup' hdrawn
  refine ⟨{ t₂ with table := table }, ?_, h₃, ?_⟩
  · simp only [allow, hexpire, hfor, hload, hassign, Option.bind_eq_bind, Option.bind_some]
    rfl
  · have hfields : ({ t₂.limiter with lru := table.nodes } : RateLimiter) =
        (t.limiter.allowBy R k now).1 := by
      rw [hlimiter₂, hnodes₃]
      rfl
    exact hfields

/-- Without rounding, the list model is what the table does. -/
theorem allow_simulates_exact (h : Coherent ClientBucket.key t.table) (k : BucketKey) (now : ℤ) :
    ∃ t', t.allow Rounding.exact k now = some (t', (t.limiter.allow k now).2) ∧
      t'.Mirrors (t.limiter.allow k now).1 := by
  rw [← allowBy_exact]
  exact allow_simulates Rounding.exact h k now

/-! ## Whole runs -/

theorem sameBuckets (h : Coherent ClientBucket.key t.table) : t.SameBuckets := by
  refine ⟨h.index_perm, h.nodup_addresses, ?_⟩
  intro k p hk
  obtain ⟨b, i, hb, hkey, -, -⟩ := h.lookup_some hk
  exact ⟨b, Linked.load_of_store hb, hkey⟩

/-- A call returns, and keeps the invariant. -/
theorem step_inv (R : Rounding ℚ) {now now' : ℤ} (h : Coherent ClientBucket.key t.table)
    (hinv : t.limiter.Inv R now) (hle : now ≤ now') (k : BucketKey) :
    ∃ t', t.step R (k, now') = some t' ∧ Coherent ClientBucket.key t'.table ∧
      t.limiter.SameConfig t'.limiter ∧ t'.limiter.Inv R now' := by
  obtain ⟨t', hallow, h', hlimiter⟩ := allow_simulates R h k now'
  refine ⟨t', by rw [step, hallow, Option.map_some], h', ?_, ?_⟩
  · rw [hlimiter]
    exact ⟨rfl, rfl, rfl, rfl⟩
  · rw [hlimiter]
    exact hinv.allowBy hle k

/-- So does a run of calls in the order of their times. -/
theorem run_inv (R : Rounding ℚ) {calls : List (BucketKey × ℤ)} {now : ℤ}
    (hmono : calls.Pairwise fun c d => c.2 ≤ d.2) (hnow : ∀ c ∈ calls, now ≤ c.2)
    (h : Coherent ClientBucket.key t.table) (hinv : t.limiter.Inv R now) :
    ∃ t', Runs.run (step R) t calls = some t' ∧ Coherent ClientBucket.key t'.table ∧
      t.limiter.SameConfig t'.limiter ∧
      ∀ later, now ≤ later → (∀ c ∈ calls, c.2 ≤ later) → t'.limiter.Inv R later := by
  induction calls generalizing t now with
  | nil => exact ⟨t, rfl, h, .refl _, fun later hle _ => hinv.later hle⟩
  | cons c calls ih =>
    obtain ⟨k, time⟩ := c
    obtain ⟨hlater, hmono⟩ := List.pairwise_cons.mp hmono
    obtain ⟨t₁, hstep, h₁, hconfig₁, hinv₁⟩ := step_inv R h hinv (hnow _ List.mem_cons_self) k
    obtain ⟨t', hrun, h', hconfig, hinv'⟩ := ih hmono hlater h₁ hinv₁
    refine ⟨t', Runs.run_cons_eq_some.mpr ⟨t₁, hstep, hrun⟩, h',
      hconfig₁.both (.refl _) hconfig, ?_⟩
    intro later hle hcalls
    exact hinv' later (hcalls _ List.mem_cons_self)
      fun c hc => hcalls c (List.mem_cons_of_mem _ hc)

end LimiterTable

/-- A new table. -/
theorem inv_new {R : Rounding ℚ} {rate burst : ℚ} (hrate : 0 ≤ rate) (hburst : 0 ≤ burst)
    (hfl : R.fl burst = burst) {maxClients : ℤ} (hmax : 1 ≤ maxClients) (v6Prefix now : ℤ) :
    (newLimiterTable rate burst maxClients v6Prefix).limiter.Inv R now := by
  have hroom : 1 ≤ (newLimiterTable rate burst maxClients v6Prefix).maxClients := by
    unfold newLimiterTable
    dsimp only
    rw [if_neg (by omega)]
    omega
  exact ⟨ordered_nil rfl now, Nat.zero_le _, fun b hb => absurd hb List.not_mem_nil, hrate,
    Tokens.within_full hburst hfl, hroom⟩

/-- A time after all of a trace. -/
theorem exists_end (calls : List (BucketKey × ℤ)) : ∃ last, ∀ c ∈ calls, c.2 ≤ last := by
  induction calls with
  | nil => exact ⟨0, fun c hc => absurd hc List.not_mem_nil⟩
  | cons c calls ih =>
    obtain ⟨last, hlast⟩ := ih
    refine ⟨max c.2 last, ?_⟩
    intro d hd
    rcases List.mem_cons.mp hd with rfl | hd
    · exact le_max_left _ _
    · exact (hlast d hd).trans (le_max_right _ _)

/-- **The representation of the limiter.**  After any calls to `allow` in the order of their
times, with whatever rounding: the map and the list hold the same buckets, they are no more
than `maxClients`, each holds between nothing and the burst, the list is in the order of
`lastSeen`, and `expire` removes exactly what has been idle for more than a minute. -/
theorem limiter_representation (R : Rounding ℚ) {rate burst : ℚ} (hrate : 0 ≤ rate)
    (hburst : 0 ≤ burst) (hfl : R.fl burst = burst) {maxClients : ℤ} (hmax : 1 ≤ maxClients)
    (v6Prefix : ℤ) (calls : List (BucketKey × ℤ))
    (hmono : calls.Pairwise fun c d => c.2 ≤ d.2) :
    ∃ t, Runs.run (LimiterTable.step R) (newLimiterTable rate burst maxClients v6Prefix) calls =
        some t ∧
      t.SameBuckets ∧ t.size ≤ maxClients ∧
      (∀ b ∈ t.table.nodes, 0 ≤ b.tokens ∧ b.tokens ≤ burst) ∧
      (t.table.nodes.Pairwise fun a b => b.lastSeen ≤ a.lastSeen) ∧
      ∀ now, (∀ c ∈ calls, c.2 ≤ now) → ∃ t', t.expire now = some t' ∧ t'.SameBuckets ∧
        t'.table.nodes = t.table.nodes.filter fun b => now - b.lastSeen ≤ 60 * second := by
  obtain ⟨start, hstart⟩ := exists_start hmono
  -- the state that the run ends in, seen at any time that is not before the last call
  have hrun : ∀ now, (∀ c ∈ calls, c.2 ≤ now) → ∃ t,
      Runs.run (LimiterTable.step R) (newLimiterTable rate burst maxClients v6Prefix) calls =
        some t ∧ Coherent ClientBucket.key t.table ∧
      (newLimiterTable rate burst maxClients v6Prefix).limiter.SameConfig t.limiter ∧
      t.limiter.Inv R now := by
    intro now hnow
    obtain ⟨t, hrun, ht, hconfig, hinv⟩ := LimiterTable.run_inv R hmono
      (fun c hc => (min_le_left start now).trans (hstart c hc)) Linked.coherent_empty
      (inv_new hrate hburst hfl hmax v6Prefix (min start now))
    exact ⟨t, hrun, ht, hconfig, hinv now (min_le_right _ _) hnow⟩
  obtain ⟨last, hlast⟩ := exists_end calls
  obtain ⟨t, ht, hcoherent, hconfig, hinv⟩ := hrun last hlast
  refine ⟨t, ht, LimiterTable.sameBuckets hcoherent, ?_, ?_, hinv.ordered.sorted, ?_⟩
  · have hclients : t.limiter.maxClients = maxClients.toNat := by
      rw [hconfig.maxClients]
      exact if_neg (by omega)
    have hsize := hinv.size
    rw [← LimiterTable.size_limiter hcoherent, hclients] at hsize
    omega
  · intro b hb
    have hwithin := hinv.within b hb
    have hsame : t.limiter.burst = burst := hconfig.burst
    rw [hsame] at hwithin
    exact ⟨hwithin.nonneg, hwithin.le_depth⟩
  · intro now hnow
    obtain ⟨u, hu, -, -, hinv'⟩ := hrun now hnow
    rw [ht, Option.some.injEq] at hu
    subst hu
    obtain ⟨t', hexpire, hcoherent', hlimiter⟩ := LimiterTable.expire_mirrors hcoherent now
    refine ⟨t', hexpire, LimiterTable.sameBuckets hcoherent', ?_⟩
    have hnodes : t'.table.nodes = (t.limiter.expire now).lru := congrArg RateLimiter.lru hlimiter
    rw [hnodes, expire_lru hinv'.ordered]
    refine List.filter_congr fun b hb => ?_
    have hidle : b.idle now = true ↔ 60 * second < now - b.lastSeen :=
      idle_iff (hinv'.ordered.seen b hb)
    rw [Bool.eq_iff_iff, Bool.not_eq_true', ← Bool.not_eq_true, hidle, decide_eq_true_eq, not_lt]

/-- Three clients of a table for two, of which the first returns after a minute. -/
def threeClients : List (BucketKey × ℤ) :=
  [(⟨.v4 1, 0, .service⟩, 0), (⟨.v4 2, 0, .service⟩, second), (⟨.v4 3, 0, .service⟩, 2 * second),
    (⟨.v4 1, 0, .service⟩, 63 * second)]

theorem limiter_representation_threeClients :
    ∃ t, Runs.run (LimiterTable.step Rounding.exact) (newLimiterTable 1 1 2 0) threeClients =
        some t ∧
      t.SameBuckets ∧ t.size ≤ (2 : ℤ) ∧
      (∀ b ∈ t.table.nodes, 0 ≤ b.tokens ∧ b.tokens ≤ 1) ∧
      (t.table.nodes.Pairwise fun a b => b.lastSeen ≤ a.lastSeen) ∧
      ∀ now, (∀ c ∈ threeClients, c.2 ≤ now) → ∃ t', t.expire now = some t' ∧ t'.SameBuckets ∧
        t'.table.nodes = t.table.nodes.filter fun b => now - b.lastSeen ≤ 60 * second :=
  limiter_representation Rounding.exact zero_le_one zero_le_one rfl (by decide) 0 threeClients
    (by decide)

/-- The third client has pushed the first out; when that returns, the other two have expired. -/
example : ((Runs.run (LimiterTable.step Rounding.exact) (newLimiterTable 1 1 2 0)
    threeClients).map fun t => t.table.nodes.map fun b => b.key.addr) = some [.v4 1] := by
  decide +kernel

end Carillon.Server
