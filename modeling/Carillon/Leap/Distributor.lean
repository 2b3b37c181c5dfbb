/-
# Serving leap tables

`Reply` answers a request from an object, without state.  The distributor shared by
the listeners checks the key, spends from two budgets and asks for the object that is
current at the wall time.

A budget is one atomic word.  Between the load and the swap of `allow` another
listener may write it; those writes are a parameter here, and a swap succeeds only if
the word is still what was loaded.
-/
import Carillon.Leap.Wire

namespace Carillon.Leap

open Octets (get put)

/-! ## Replies -/

/-- The errors of `Reply` and `Respond`. -/
inductive ReplyError where
  | rejected (r : Rejection)
  | notRequest (operation : UInt8)
  deriving DecidableEq

/-- `Reason`: what a listener can tell of an error. -/
def ReplyError.reason : ReplyError → Option Reason
  | .rejected r => some r.reason
  | .notRequest _ => none

/-- The number of bytes of a chunk at an offset. -/
def chunkCount (m : Manifest) (offset : BitVec 32) : ℕ :=
  min chunkSize (m.size - offset.toNat)

/-- The answer to a probe. -/
def probeReply (sha256 : Bytes → Digest) (req : Message) (object : Option Object) : Message where
  operation := opManifestReply
  result := object.elim resultNoTable fun _ => resultOK
  id := req.id
  manifest := object.elim .zero (·.manifest sha256)
  offset := 0
  count := 0
  data := []

/-- The answer to a request for a chunk of a file that is not there. -/
def missingReply (req : Message) : Message where
  operation := opData
  result := resultNotFound
  id := req.id
  manifest := req.manifest
  offset := req.offset
  count := 0
  data := []

/-- The answer to a request for a chunk. -/
def chunkReply (req : Message) (o : Object) : Message where
  operation := opData
  result := resultOK
  id := req.id
  manifest := req.manifest
  offset := req.offset
  count := BitVec.ofNat 16 (chunkCount req.manifest req.offset)
  data := o.data.extract req.offset.toNat (req.offset.toNat + chunkCount req.manifest req.offset)

/-- `Reply`. -/
def reply (sha256 : Bytes → Digest) (req : Message) (object : Option Object) :
    Except ReplyError Message :=
  match req.validate with
  | .error r => .error (.rejected r)
  | .ok () =>
    if req.operation = opProbe then .ok (probeReply sha256 req object)
    else if req.operation = opGet then
      match object with
      | none => .ok (missingReply req)
      | some o => .ok
        (if o.manifest sha256 ≠ req.manifest then missingReply req else chunkReply req o)
    else .error (.notRequest req.operation)

/-! ## The distributor -/

/-- `budget.allow` on the virtual finish time `finish`, with the values that other
listeners write between a load and the swap that follows it. -/
def budgetAllow (now interval burst : ℤ) : ℕ → List ℤ → ℤ → Bool × ℤ
  | 0, _, finish => (false, finish)
  | tries + 1, writes, finish =>
    -- 64-bit words: the sum wraps, and so does the difference
    let next := (max finish now + interval).bmod (2 ^ 64)
    if burst * interval < (next - now).bmod (2 ^ 64) then (false, finish)
    else match writes with
      | [] => (true, next)
      | w :: writes =>
        if w = finish then (true, next) else budgetAllow now interval burst tries writes w

/-- `Counters`, those that `Respond` counts. -/
structure Counters where
  rateLimited : ℕ
  served : ℕ
  deriving DecidableEq

/-- `Distributor`.  The budget of a key is its virtual finish time. -/
structure Distributor where
  keys : List (BitVec 32 × ℤ)
  global : ℤ
  epoch : ℤ
  counts : Option Counters
  deriving DecidableEq

/-- `NewDistributor`: one budget for each key, and none for the key id 0. -/
def newDistributor (keys : List (BitVec 32)) (epoch : ℤ) (counts : Option Counters) :
    Distributor where
  keys := (keys.filter (· ≠ 0)).dedup.map fun id => (id, 0)
  global := 0
  epoch := epoch
  counts := counts

/-- `Authorized`. -/
def Distributor.authorized (d : Distributor) (id : BitVec 32) : Bool :=
  d.keys.any (·.1 == id)

/-- What other listeners write to the budgets during one call. -/
structure Contention where
  key : List ℤ
  global : List ℤ
  deriving DecidableEq

/-- Spend from the budget of the key and from the global one.  The second is not
touched when the first refuses. -/
def Distributor.spend (d : Distributor) (id : BitVec 32) (mono : ℤ) (others : Contention) :
    Bool × Distributor :=
  let now := sub mono d.epoch
  if now < 0 then (false, d)
  else
    let ofKey := budgetAllow now (4 * second) 2 8 others.key ((d.keys.lookup id).getD 0)
    let d := { d with keys := d.keys.map fun k => if k.1 = id then (id, ofKey.2) else k }
    if ofKey.1 then
      let ofAll := budgetAllow now (second / 32) 32 8 others.global d.global
      (ofAll.1, { d with global := ofAll.2 })
    else (false, d)

/-- Count, if there are counters. -/
def Distributor.count (d : Distributor) (f : Counters → Counters) : Distributor :=
  { d with counts := d.counts.map f }

/-- The object that may be served at the wall time: it covers that time. -/
def servable (current : Option Object) (wall : ℤ) : Option Object :=
  current.filter fun o => decide (wall < o.table.expiry) && decide (o.table.baseline ≤ wall)

/-- `Respond`. -/
def Distributor.respond (sha256 : Bytes → Digest) (d : Distributor) (req : Message) (id : BitVec 32)
    (wall mono : ℤ) (current : Option Object) (others : Contention) :
    Distributor × Except ReplyError Message :=
  if d.authorized id = false then
    (d, .error (.rejected ⟨.auth, .text "key is not authorized to export leap data"⟩))
  else
    let spent := d.spend id mono others
    if spent.1 = false then
      (spent.2.count fun c => { c with rateLimited := c.rateLimited + 1 },
        .error (.rejected ⟨.rate, .text "leap request budget exhausted"⟩))
    else
      match reply sha256 req (servable current wall) with
      | .error e => (spent.2, .error e)
      | .ok r => (spent.2.count fun c => { c with served := c.served + 1 }, .ok r)

/-- Within the budgets an authorised key is answered with what `Reply` makes. -/
theorem respond_spent {d : Distributor} {id : BitVec 32} {mono : ℤ} {others : Contention}
    (hauth : d.authorized id = true) (hspend : (d.spend id mono others).1 = true)
    (sha256 : Bytes → Digest) (req : Message) (wall : ℤ) (current : Option Object) :
    (d.respond sha256 req id wall mono current others).2 = reply sha256 req
    (servable current wall) := by
  unfold Distributor.respond
  rw [if_neg (by rw [hauth]; decide)]
  dsimp only
  rw [if_neg (by rw [hspend]; decide)]
  cases reply sha256 req (servable current wall) <;> rfl

/-! ## What is served is valid -/

/-- What a reply says of its request. -/
structure Replies (req r : Message) : Prop where
  request : req.operation = opProbe ∨ req.operation = opGet
  operation : r.operation = req.operation + 1
  id : r.id = req.id
  chunk : req.operation = opGet → r.manifest = req.manifest ∧ r.offset = req.offset

/-- A valid probe is answered with the manifest. -/
theorem reply_probe (sha256 : Bytes → Digest) {req : Message} (hreq : req.validate = .ok ())
    (hop : req.operation = opProbe) (object : Option Object) :
    reply sha256 req object = .ok (probeReply sha256 req object) := by
  unfold reply
  rw [hreq]
  dsimp only
  rw [if_pos hop]

/-- A valid request is answered with the chunk, or with its absence. -/
theorem reply_get (sha256 : Bytes → Digest) {req : Message} (hreq : req.validate = .ok ())
    (hop : req.operation = opGet) (object : Option Object) :
    reply sha256 req object =
      .ok (match object.filter fun o => o.manifest sha256 = req.manifest with
      | none => missingReply req
      | some o => chunkReply req o) := by
  have hnot : ¬req.operation = opProbe := by
    rw [hop]
    decide
  unfold reply
  rw [hreq]
  dsimp only
  rw [if_neg hnot, if_pos hop]
  cases object with
  | none => rfl
  | some o =>
    by_cases hman : o.manifest sha256 = req.manifest
    · simp [hman, Option.filter_some]
    · simp [hman, Option.filter_some]

variable {sha256 : Bytes → Digest} {req r : Message}

/-- The three forms of a reply. -/
theorem reply_cases {object : Option Object} (h : reply sha256 req object = .ok r) :
    req.Valid ∧ (req.operation = opProbe ∧ r = probeReply sha256 req object ∨
      req.operation = opGet ∧ (r = missingReply req ∨
        ∃ o ∈ object, o.manifest sha256 = req.manifest ∧ r = chunkReply req o)) := by
  rcases req.validate_cases with hreq | hreq
  · refine ⟨req.validate_ok_iff.mp hreq, ?_⟩
    by_cases hprobe : req.operation = opProbe
    · rw [reply_probe sha256 hreq hprobe] at h
      exact .inl ⟨hprobe, (Except.ok.inj h).symm⟩
    by_cases hget : req.operation = opGet
    · rw [reply_get sha256 hreq hget] at h
      refine .inr ⟨hget, ?_⟩
      have hr := (Except.ok.inj h).symm
      cases hobject : object.filter fun o => o.manifest sha256 = req.manifest with
      | none =>
        rw [hobject] at hr
        exact .inl hr
      | some o =>
        rw [hobject] at hr
        rw [Option.filter_eq_some_iff] at hobject
        exact .inr ⟨o, hobject.1, of_decide_eq_true hobject.2, hr⟩
    · unfold reply at h
      rw [hreq] at h
      dsimp only at h
      rw [if_neg hprobe, if_neg hget] at h
      cases h
  · unfold reply at h
    rw [hreq] at h
    cases h

/-- Every reply is one to its request. -/
theorem reply_replies {object : Option Object} (h : reply sha256 req object = .ok r) :
    req.Valid ∧ Replies req r := by
  obtain ⟨hvalid, ⟨hop, rfl⟩ | ⟨hop, rfl | ⟨o, -, -, rfl⟩⟩⟩ := reply_cases h
  · refine ⟨hvalid, .inl hop, by rw [hop]; rfl, rfl, ?_⟩
    intro hget
    exact absurd (hop.symm.trans hget) (by decide)
  · exact ⟨hvalid, .inr hop, by rw [hop]; rfl, rfl, fun _ => ⟨rfl, rfl⟩⟩
  · exact ⟨hvalid, .inr hop, by rw [hop]; rfl, rfl, fun _ => ⟨rfl, rfl⟩⟩

/-- The place that a valid request for a chunk names. -/
theorem Message.Valid.place {req : Message} (h : req.Valid) (hop : req.operation = opGet) :
    req.manifest ≠ .zero ∧ req.offset.toNat < req.manifest.size ∧ req.offset.toNat % 256 = 0 := by
  rcases h.shape with ⟨hop', _⟩ | ⟨hop', _⟩ | ⟨_, _, hne, hlt, hmod, _, _⟩ | ⟨hop', _⟩
  · exact absurd (hop.symm.trans hop') (by decide)
  · exact absurd (hop.symm.trans hop') (by decide)
  · exact ⟨hne, hlt, hmod⟩
  · exact absurd (hop.symm.trans hop') (by decide)

/-- The chunk is inside the file. -/
theorem chunkReply_data {req : Message} {o : Object} (hman : o.manifest sha256 = req.manifest)
    (hlt : req.offset.toNat < req.manifest.size) :
    (chunkReply req o).data.length = chunkCount req.manifest req.offset ∧
      req.offset.toNat + chunkCount req.manifest req.offset ≤ o.data.length := by
  have hsize : o.data.length = req.manifest.size := congrArg Manifest.size hman
  have hend : req.offset.toNat + chunkCount req.manifest req.offset ≤ o.data.length := by
    have h := min_le_right chunkSize (req.manifest.size - req.offset.toNat)
    rw [chunkCount]
    omega
  refine ⟨?_, hend⟩
  show (o.data.extract _ _).length = _
  rw [Octets.length_extract hend, Nat.add_sub_cancel_left]

/-- **Every reply validates**, for digests that are not zero. -/
theorem reply_valid {object : Option Object}
    (hash : ∀ o ∈ object, sha256 o.data ≠ Vector.replicate 32 0)
    (h : reply sha256 req object = .ok r) : r.Valid := by
  obtain ⟨hvalid, ⟨hop, rfl⟩ | ⟨hop, rfl | ⟨o, ho, hman, rfl⟩⟩⟩ := reply_cases h
  · cases object with
    | none => exact ⟨hvalid.id_ne, .inl rfl, .manifestReply rfl rfl rfl rfl (.inr ⟨rfl, rfl⟩)⟩
    | some o =>
      have hman := o.manifest_valid sha256 (hash o rfl)
      exact ⟨hvalid.id_ne, .inr hman, .manifestReply rfl rfl rfl rfl (.inl ⟨rfl, hman.ne_zero⟩)⟩
  · obtain ⟨hne, hlt, hmod⟩ := hvalid.place hop
    exact ⟨hvalid.id_ne, hvalid.manifest, .data rfl hne hlt hmod rfl (.inl ⟨rfl, rfl⟩)⟩
  · obtain ⟨hne, hlt, hmod⟩ := hvalid.place hop
    obtain ⟨hlen, -⟩ := chunkReply_data hman hlt
    have hcount : chunkCount req.manifest req.offset ≤ 256 := min_le_left _ _
    refine ⟨hvalid.id_ne, hvalid.manifest, .data rfl hne hlt hmod ?_ (.inr ⟨rfl, hlen⟩)⟩
    rw [hlen]
    exact (BitVec.toNat_ofNat _ _).trans (Nat.mod_eq_of_lt (by omega))

/-- **A reply is no longer than its request.** -/
theorem Replies.length_le (h : Replies req r) (hreq : req.Valid) (hr : r.Valid) :
    r.length ≤ req.length := by
  obtain ⟨hge, -, -⟩ := length_bounds hreq
  obtain ⟨-, hle, -⟩ := length_bounds hr
  rcases h.request with hop | hop
  · -- a manifest carries no data
    have hrop : r.operation = opManifestReply := by
      rw [h.operation, hop]
      rfl
    have hdata : r.data = [] := by
      rcases hr.shape with ⟨hop', _⟩ | ⟨_, _, _, hdata, _⟩ | ⟨hop', _⟩ | ⟨hop', _⟩
      · exact absurd (hrop.symm.trans hop') (by decide)
      · exact hdata
      · exact absurd (hrop.symm.trans hop') (by decide)
      · exact absurd (hrop.symm.trans hop') (by decide)
    have hlen : r.length = 88 := by
      unfold Message.length
      rw [hrop, hdata]
      rfl
    omega
  · -- a request for a chunk is as long as a field can be
    have hlen : req.length = 344 := by
      unfold Message.length
      rw [if_pos hop]
      rfl
    omega

/-- A served reply comes from `Reply`. -/
theorem respond_ok {d : Distributor} {id : BitVec 32} {wall mono : ℤ} {current : Option Object}
    {others : Contention} (h : (d.respond sha256 req id wall mono current others).2 = .ok r) :
    d.authorized id = true ∧ (d.spend id mono others).1 = true ∧
      reply sha256 req (servable current wall) = .ok r := by
  unfold Distributor.respond at h
  by_cases hkey : d.authorized id = false
  · rw [if_pos hkey] at h
    cases h
  rw [if_neg hkey] at h
  dsimp only at h
  by_cases hspent : (d.spend id mono others).1 = false
  · rw [if_pos hspent] at h
    cases h
  rw [if_neg hspent] at h
  refine ⟨Bool.eq_true_of_not_eq_false hkey, Bool.eq_true_of_not_eq_false hspent, ?_⟩
  cases hreply : reply sha256 req (servable current wall) with
  | error e =>
    rw [hreply] at h
    cases h
  | ok r' =>
    rw [hreply] at h
    exact h

end Carillon.Leap
