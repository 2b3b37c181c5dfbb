/-
# Fetching a leap table from a peer

The client side of CLPS: a probe, the check of the manifest that comes back, and a
request for each chunk of the file.  `checkReply` decides on one datagram; an exchange
sends a request up to three times and reads until a reply is accepted.

What the network does is a parameter: for each attempt the random numbers that are
drawn, the datagrams that arrive in time and whether it ends with an error of the
connection or the context.  The pauses between requests do not show.
-/
import Carillon.Ntp.Auth
import Carillon.Ntp.Timestamp
import Carillon.Leap.Wire

namespace Carillon.Leap

open Ntp (Key Packet Cipher)

/-! ## Errors -/

/-- The reason of a `PeerError`. -/
inductive PeerReason where
  | kiss (code : Bytes)
  | unsupported
  deriving DecidableEq

/-- `PeerError`. -/
structure PeerError where
  reason : PeerReason
  retryAfter : ℤ
  minInterval : ℤ
  stop : Bool
  deriving DecidableEq

/-- The errors of an exchange.  `io` stands for those of the context, the random source
and the connection. -/
inductive FetchError where
  | rejected (r : Rejection)
  | peer (e : PeerError)
  | io
  deriving DecidableEq

/-- `Reject`, as an error of an exchange. -/
def refuse {α : Type} (reason : Reason) (detail : String) : Except FetchError α :=
  .error (.rejected ⟨reason, .text detail⟩)

/-! ## One datagram -/

/-- The error for a kiss. -/
def kissError (p : Packet) : PeerError :=
  let code := p.kissCode
  let rate := decide (code = Ntp.RefID.text Ntp.kissRATE)
  let wait := if rate then 2 ^ (min (max p.poll.toInt 2) 17).toNat * second else 24 * hour
  { reason := .kiss code
    retryAfter := wait
    minInterval := if rate then wait else 0
    stop := decide (code = Ntp.RefID.text Ntp.kissDENY) ||
      decide (code = Ntp.RefID.text Ntp.kissRSTR) }

/-- The error for a reply without a CLPS field that is understood. -/
def unsupportedError : PeerError :=
  { reason := .unsupported, retryAfter := 24 * hour, minInterval := 0, stop := false }

/-- The reply is the one to the request. -/
def correlate (m req : Message) : Except FetchError Message :=
  if m.id ≠ req.id ∨ m.operation ≠ req.operation + 1 then
    refuse .correlation "response ID or operation mismatch"
  else if req.operation = opGet ∧ (m.manifest ≠ req.manifest ∨ m.offset ≠ req.offset) then
    refuse .correlation "chunk identifies another object or offset"
  else .ok m

/-- `checkReply`. -/
def checkReply (aes : Cipher) (buf : Bytes) (key : Key) (origin : Ntp.Time) (req : Message) :
    Except FetchError Message :=
  match Ntp.decode buf with
  | .error _ => refuse .auth "response authentication failed"
  | .ok d =>
    if (d.mac.any fun mac => key.verify aes (buf.take d.macOffset) mac) = false then
      refuse .auth "response authentication failed"
    else if d.packet.version ≠ 4 ∨ d.packet.mode ≠ .server ∨ d.packet.originTime ≠ origin then
      refuse .correlation "response header does not match request"
    else if d.packet.isKiss = true then .error (.peer (kissError d.packet))
    else
      match decodeFields (buf.extract Ntp.headerSize d.macOffset) with
      | .error .unsupported => .error (.peer unsupportedError)
      | .ok none => .error (.peer unsupportedError)
      | .error (.rejected r) => .error (.rejected r)
      | .ok (some m) => correlate m req

/-! ## Exchanges -/

/-- One attempt of an exchange: the random numbers, what arrives until its end, and
whether it ends with an error rather than a timeout. -/
structure Attempt where
  id : Vector UInt8 16
  nonce : Ntp.Time
  received : List Bytes
  failed : Bool

/-- The message as it is sent in an attempt: its id is not zero. -/
def Attempt.message (a : Attempt) (m : Message) : Message :=
  { m with id := if a.id = Vector.replicate 16 0 then a.id.set 0 1 else a.id }

/-- The transmit time of the request, which is not zero. -/
def Attempt.xmit (a : Attempt) : Ntp.Time :=
  if a.nonce = 0 then 1 else a.nonce

/-- A request never has the zero identifier. -/
theorem Attempt.message_id_ne (a : Attempt) (m : Message) :
    (a.message m).id ≠ Vector.replicate 16 0 := by
  show (if a.id = Vector.replicate 16 0 then a.id.set 0 1 else a.id) ≠ _
  by_cases h : a.id = Vector.replicate 16 0
  · rw [if_pos h, h]
    decide
  · rw [if_neg h]
    exact h

/-- The attempts of an exchange differ in the id only. -/
theorem Attempt.message_valid {a b : Attempt} {m : Message} (h : (a.message m).Valid) :
    (b.message m).Valid := by
  refine ⟨b.message_id_ne m, h.manifest, ?_⟩
  rcases h.shape with ⟨h1, h2, h3, h4, h5⟩ | ⟨h1, h2, h3, h4, h5⟩ | ⟨h1, h2, h3, h4, h5, h6, h7⟩ |
    ⟨h1, h2, h3, h4, h5, h6⟩
  · exact .probe h1 h2 h3 h4 h5
  · exact .manifestReply h1 h2 h3 h4 h5
  · exact .get h1 h2 h3 h4 h5 h6 h7
  · exact .data h1 h2 h3 h4 h5 h6

/-- The header of a request. -/
def requestHeader (xmit : Ntp.Time) : Packet where
  leap := .unsync
  version := 4
  mode := .client
  stratum := 0
  poll := 2
  precision := 0
  rootDelay := 0
  rootDispersion := 0
  referenceID := default
  referenceTime := 0
  originTime := 0
  receiveTime := 0
  transmitTime := xmit

/-- The datagram that is sent. -/
def requestPacket (aes : Cipher) (key : Key) (m : Message) (xmit : Ntp.Time) :
    Except Rejection Bytes :=
  (m.appendTo (requestHeader xmit).marshal).map (key.append aes)

variable {aes : Cipher} {key : Key}

/-- A valid message is sent, and no other. -/
theorem requestPacket_ok_iff {m : Message} {xmit : Ntp.Time} {sent : Bytes} :
    requestPacket aes key m xmit = .ok sent ↔
      m.Valid ∧ sent = key.append aes ((requestHeader xmit).marshal ++ m.field) := by
  unfold requestPacket Message.appendTo
  rw [← m.validate_ok_iff]
  rcases m.validate_cases with hm | hm
  · rw [hm]
    constructor
    · intro h
      exact ⟨rfl, (Except.ok.inj h).symm⟩
    · rintro ⟨-, rfl⟩
      rfl
  · rw [hm]
    constructor
    · intro h
      cases h
    · rintro ⟨h, -⟩
      cases h

section Client

variable (aes : Cipher) (key : Key)

/-- The reads of an attempt: the first datagram that is accepted or is an error of the
peer.  Any other is skipped. -/
def readReplies (xmit : Ntp.Time) (req : Message) : List Bytes → Option (Except FetchError Message)
  | [] => none
  | buf :: rest =>
    if Ntp.maxPacketSize < buf.length then readReplies xmit req rest
    else
      match checkReply aes buf key xmit req with
      | .ok m => some (.ok m)
      | .error (.peer e) => some (.error (.peer e))
      | .error _ => readReplies xmit req rest

/-- The attempts of `exchange`. -/
def exchangeLoop (m : Message) : List Attempt → Except FetchError Message
  | [] =>
    if m.operation = opProbe then refuse .timeout "probe timed out after three attempts"
    else refuse .timeout "chunk timed out after three attempts"
  | a :: rest =>
    match requestPacket aes key (a.message m) a.xmit with
    | .error r => .error (.rejected r)
    | .ok _ =>
      match readReplies aes key a.xmit (a.message m) a.received with
      | some result => result
      | none => if a.failed then .error .io else exchangeLoop m rest

/-- `exchange`. -/
def exchange (m : Message) (attempts : List Attempt) : Except FetchError Message :=
  exchangeLoop aes key m (attempts.take 3)

end Client

/-! ## A transfer -/

/-- `CheckManifest`. -/
def checkManifest (sha256 : Bytes → Digest) (old : Option Object) (m : Manifest) (now : ℤ) :
    Except Rejection Unit :=
  match m.validate with
  | .error e => .error ⟨.metadata, e⟩
  | .ok () =>
    if now = 0 then reject .timeUnknown "UTC has not been established"
    else
      let u := (m.updated + ntpEpoch) * second
      let e := (m.expires + ntpEpoch) * second
      if e ≤ now then reject .expired "advertised table has expired"
      else if now + 5 * minute < u ∨ now + 400 * day < e then
        reject .date "advertised dates are outside UTC bounds"
      else
        match old with
        | none => .ok ()
        | some old =>
          let om := old.manifest sha256
          if m = om then .ok ()
          else if m.updated < om.updated ∨ m.expires < om.expires then
            reject .rollback "advertised dates decreased"
          else if m.updated = om.updated ∧ m.expires = om.expires then
            reject .conflict "different bytes with identical advertised dates"
          else .ok ()

/-- The probe for a file, with the manifest of the one that is held. -/
def probe (sha256 : Bytes → Digest) (cached : Option Object) : Message where
  operation := opProbe
  result := resultOK
  id := Vector.replicate 16 0
  manifest := cached.elim .zero (·.manifest sha256)
  offset := 0
  count := 0
  data := []

/-- The request for the chunk at an offset. -/
def getChunk (m : Manifest) (offset : ℕ) : Message where
  operation := opGet
  result := resultOK
  id := Vector.replicate 16 0
  manifest := m
  offset := BitVec.ofNat 32 offset
  count := BitVec.ofNat 16 chunkSize
  data := []

/-- The number of chunks of a file. -/
def Manifest.chunks (m : Manifest) : ℕ :=
  (m.size + chunkSize - 1) / chunkSize

section Fetch

variable (aes : Cipher) (key : Key) (sha256 : Bytes → Digest)

/-- The chunk loop of `fetch`, from chunk `i` on; there are `n` left.  The exchange for
chunk `i` has the number `i + 1`. -/
def chunkLoop (m : Manifest) (script : ℕ → List Attempt) : ℕ → ℕ → Bytes → Except FetchError Bytes
  | 0, _, data => .ok data
  | n + 1, i, data =>
    match exchange aes key (getChunk m (i * chunkSize)) (script (i + 1)) with
    | .error e => .error e
    | .ok chunk =>
      if chunk.result ≠ resultOK then
        refuse .changed "distributor no longer holds the requested object"
      else chunkLoop m script n (i + 1) (data ++ chunk.data)

/-- `peerClient.fetch`, after the probe was answered with a manifest. -/
def fetchObject (cached : Option Object) (now spacing : ℤ) (script : ℕ → List Attempt)
    (m : Manifest) : Except FetchError (Option Object) :=
  match checkManifest sha256 cached m now with
  | .error r => .error (.rejected r)
  | .ok () =>
    if cached.map (·.manifest sha256) = some m then .ok none
    else if 30 * minute ≤ m.chunks * min spacing (4 * second) then
      refuse .rate "peer RATE interval cannot fit this object in the 30-minute transfer bound"
    else
      match chunkLoop aes key m script m.chunks 0 [] with
      | .error e => .error e
      | .ok data =>
        match newObject data with
        | .error r => .error (.rejected r)
        | .ok o =>
          if o.manifest sha256 ≠ m then refuse .digest "assembled file does not match manifest"
          else .ok (some o)

/-- `peerClient.fetch`; `ok none` is the return of neither an object nor an error.  The
exchanges of the transfer are numbered, the probe is the first. -/
def fetch (cached : Option Object) (now spacing : ℤ) (script : ℕ → List Attempt) :
    Except FetchError (Option Object) :=
  match exchange aes key (probe sha256 cached) (script 0) with
  | .error e => .error e
  | .ok first =>
    if first.result = resultNoTable then refuse .missing "distributor has no current table"
    else fetchObject aes key sha256 cached now spacing script first.manifest

end Fetch

/-! ## The check before a transfer -/

variable {sha256 : Bytes → Digest}

/-- For the manifest of an object, `CheckManifest` compares what `CheckUpdate` compares:
the dates of the table itself. -/
theorem checkManifest_object {next : Object} (hash : sha256 next.data ≠ Vector.replicate 32 0)
    (old : Option Object) (now : ℤ) :
    checkManifest sha256 old (next.manifest sha256) now =
      if now = 0 then reject .timeUnknown "UTC has not been established"
      else if next.table.expiry ≤ now then reject .expired "advertised table has expired"
      else if now + 5 * minute < next.table.updated ∨ now + 400 * day < next.table.expiry then
        reject .date "advertised dates are outside UTC bounds"
      else match old with
        | none => .ok ()
        | some old =>
          if next.manifest sha256 = old.manifest sha256 then .ok ()
          else if next.table.updated < old.table.updated ∨ next.table.expiry < old.table.expiry then
            reject .rollback "advertised dates decreased"
          else if next.table.updated = old.table.updated ∧ next.table.expiry = old.table.expiry then
            reject .conflict "different bytes with identical advertised dates"
          else .ok () := by
  obtain ⟨hu, he⟩ := next.dated
  have hback : ∀ {t : ℤ}, (∃ n, date n = .ok t) → (dateSeconds t + ntpEpoch) * second = t := by
    rintro t ⟨n, hn⟩
    exact (dateSeconds_date hn).2.1
  unfold checkManifest
  rw [(next.manifest sha256).validate_ok_iff.mpr (next.manifest_valid sha256 hash)]
  dsimp only
  have hupdated : ((next.manifest sha256).updated + ntpEpoch) * second = next.table.updated :=
    hback hu
  have hexpires : ((next.manifest sha256).expires + ntpEpoch) * second = next.table.expiry :=
    hback he
  rw [hupdated, hexpires]
  cases old with
  | none => rfl
  | some old =>
    obtain ⟨hu', he'⟩ := old.dated
    have heq : ∀ {t t' : ℤ}, (∃ n, date n = .ok t) → (∃ n, date n = .ok t') →
        (dateSeconds t = dateSeconds t' ↔ t = t') := by
      intro t t' ht ht'
      refine ⟨fun h => ?_, congrArg dateSeconds⟩
      rw [← hback ht, ← hback ht', h]
    have hless : (next.manifest sha256).updated < (old.manifest sha256).updated ∨
        (next.manifest sha256).expires < (old.manifest sha256).expires ↔
        next.table.updated < old.table.updated ∨ next.table.expiry < old.table.expiry :=
      or_congr (dateSeconds_lt_iff hu hu') (dateSeconds_lt_iff he he')
    have hsame : (next.manifest sha256).updated = (old.manifest sha256).updated ∧
        (next.manifest sha256).expires = (old.manifest sha256).expires ↔
        next.table.updated = old.table.updated ∧ next.table.expiry = old.table.expiry :=
      and_congr (heq hu hu') (heq he he')
    simp only [hless, hsame]

/-- **The check of the manifest never blocks an update**: a candidate that `CheckUpdate`
accepts has a manifest that `CheckManifest` accepts, and where `CheckManifest` finds the
dates expired, implausible, rolled back or in conflict, `CheckUpdate` rejects the file, for
the same reason or for its dates.  Of the digest only that it is not zero matters. -/
theorem checkManifest_sound (sha256 : Bytes → Digest)
    (hash : ∀ data, sha256 data ≠ Vector.replicate 32 0) (old : Option Object) (next : Object)
    (now : ℤ) :
    (checkUpdate sha256 old (some next) now = .ok () →
      checkManifest sha256 old (next.manifest sha256) now = .ok ()) ∧
    ∀ r, checkManifest sha256 old (next.manifest sha256) now = .error r →
      r.reason ∈ [Reason.expired, .date, .rollback, .conflict] →
      ∃ r', checkUpdate sha256 old (some next) now = .error r' ∧
        (r'.reason = r.reason ∨ r'.reason = .date) := by
  rw [checkManifest_object (hash next.data)]
  unfold checkUpdate
  dsimp only
  by_cases hnow : now = 0
  · rw [if_pos hnow, if_pos hnow]
    refine ⟨nofun, fun r hr hreason => ?_⟩
    cases hr
    exact absurd hreason (by decide)
  rw [if_neg hnow, if_neg hnow]
  by_cases hexpired : next.table.expiry ≤ now
  · rw [if_pos hexpired, if_pos hexpired]
    refine ⟨nofun, fun r hr _ => ?_⟩
    cases hr
    exact ⟨_, rfl, .inl rfl⟩
  rw [if_neg hexpired, if_neg hexpired]
  by_cases hdates : now + 5 * minute < next.table.updated ∨ now + 400 * day < next.table.expiry
  · rw [if_pos hdates, if_pos (.inr hdates)]
    refine ⟨nofun, fun r hr _ => ?_⟩
    cases hr
    exact ⟨_, rfl, .inl rfl⟩
  rw [if_neg hdates]
  by_cases hbase : now < next.table.baseline
  · -- the manifest does not show the baseline: the file is rejected for its dates
    rw [if_pos (.inl hbase)]
    exact ⟨nofun, fun r _ _ => ⟨_, rfl, .inr rfl⟩⟩
  rw [if_neg (not_or.mpr ⟨hbase, hdates⟩)]
  cases old with
  | none => exact ⟨fun _ => rfl, nofun⟩
  | some old =>
    dsimp only
    by_cases hsame : next.manifest sha256 = old.manifest sha256
    · rw [if_pos hsame, if_pos hsame]
      exact ⟨fun _ => rfl, nofun⟩
    rw [if_neg hsame, if_neg hsame]
    by_cases hback : next.table.updated < old.table.updated ∨ next.table.expiry < old.table.expiry
    · rw [if_pos hback, if_pos hback]
      refine ⟨nofun, fun r hr _ => ?_⟩
      cases hr
      exact ⟨_, rfl, .inl rfl⟩
    rw [if_neg hback, if_neg hback]
    by_cases hconflict : next.table.updated = old.table.updated ∧
      next.table.expiry = old.table.expiry
    · rw [if_pos hconflict, if_pos hconflict]
      refine ⟨nofun, fun r hr _ => ?_⟩
      cases hr
      exact ⟨_, rfl, .inl rfl⟩
    rw [if_neg hconflict, if_neg hconflict]
    exact ⟨fun _ => rfl, nofun⟩

/-- A digest of the sample files that is never zero. -/
def markedBytes (data : Bytes) : Digest := (firstBytes data).set 0 1

theorem markedBytes_ne (data : Bytes) : markedBytes data ≠ Vector.replicate 32 0 := by
  intro h
  have h0 : (markedBytes data)[0] = (Vector.replicate 32 0 : Digest)[0] := by rw [h]
  rw [markedBytes, Vector.getElem_set_self] at h0
  exact absurd h0 (by decide)

/-- On the sample files: the revision of 1972 passes both checks, and going back from it
to the file it replaced fails both, as a rollback. -/
theorem checkManifest_sound_1972 :
    checkManifest markedBytes (some list1972) (list1972b.manifest markedBytes)
      (ntpTime 2288000000) = .ok () ∧
    ∃ r, checkUpdate markedBytes (some list1972b) (some list1972) (ntpTime 2288000000) = .error r ∧
      (r.reason = .rollback ∨ r.reason = .date) := by
  constructor
  · exact (checkManifest_sound markedBytes markedBytes_ne (some list1972) list1972b _).1
      (by decide +kernel)
  · exact (checkManifest_sound markedBytes markedBytes_ne (some list1972b) list1972 _).2
      ⟨.rollback, .text "advertised dates decreased"⟩ (by decide +kernel) (by decide)

/-! ## Acceptance of a reply -/

/-- A reply to the request is correlated with it. -/
theorem correlate_replies {req r : Message} (hid : r.id = req.id)
    (hop : r.operation = req.operation + 1)
    (hchunk : req.operation = opGet → r.manifest = req.manifest ∧ r.offset = req.offset) :
    correlate r req = .ok r := by
  unfold correlate
  rw [if_neg (by simp [hid, hop]), if_neg]
  rintro ⟨hget, hne⟩
  obtain ⟨hman, hoff⟩ := hchunk hget
  rcases hne with hne | hne
  · exact hne hman
  · exact hne hoff

/-- What is decoded from a signed packet with the field of a message: its header, and the
trailer behind the field. -/
theorem decode_signed (aes : Cipher) (key : Key) {header : Packet} (hversion : header.version = 4)
    {m : Message} (hvalid : m.Valid) :
    Ntp.decode (key.append aes (header.marshal ++ m.field)) =
      .ok ⟨header, some ⟨key.id, (Ntp.cmac aes key.secret (header.marshal ++ m.field)).toList⟩,
        48 + m.field.length⟩ := by
  have hfields : ∀ f ∈ [m.field], Ntp.IsField f := by
    intro f hf
    rw [List.mem_singleton.mp hf]
    exact isField_field hvalid
  have hsupported : Ntp.Supported header.version := by
    rw [hversion]
    decide
  have hdecode := @Ntp.decode_append aes key header hsupported [m.field] hfields
  rwa [List.flatten_singleton] at hdecode

/-- Its extension fields are the field of the message. -/
theorem signed_region (aes : Cipher) (key : Key) (header : Packet) (m : Message) :
    (key.append aes (header.marshal ++ m.field)).extract Ntp.headerSize (48 + m.field.length) =
      m.field := by
  show ((header.marshal ++ m.field ++ _).drop 48).take _ = _
  rw [List.append_assoc, List.drop_left' (Ntp.marshal_length header), Ntp.headerSize,
    Nat.add_sub_cancel_left, List.take_left]

/-- **A signed packet of a server with the field of a valid reply is accepted.** -/
theorem checkReply_signed {header : Packet} {req r : Message} (hvalid : r.Valid)
    (hversion : header.version = 4) (hmode : header.mode = .server) (hstratum : header.stratum ≠ 0)
    (hcorrelate : correlate r req = .ok r) :
    checkReply aes (key.append aes (header.marshal ++ r.field)) key header.originTime req =
      .ok r := by
  have hbody : (key.append aes (header.marshal ++ r.field)).take (48 + r.field.length) =
      header.marshal ++ r.field := by
    apply List.take_left'
    rw [List.length_append, Ntp.marshal_length]
  unfold checkReply
  rw [decode_signed aes key hversion hvalid]
  dsimp only
  rw [Option.any_some, hbody, Ntp.verify_trailer, if_neg (by decide),
    if_neg (by simp [hversion, hmode]), if_neg (by simpa [Packet.isKiss] using hstratum),
    signed_region, decodeFields_field hvalid]
  exact hcorrelate

/-! ## Exchanges that are answered -/

/-- The datagram is skipped in the attempt. -/
def Attempt.Skips (aes : Cipher) (key : Key) (a : Attempt) (m : Message) (buf : Bytes) : Prop :=
  Ntp.maxPacketSize < buf.length ∨ ∃ r, checkReply aes buf key a.xmit (a.message m) =
    .error (.rejected r)

/-- Packets that are not for the attempt are passed over. -/
theorem readReplies_skip {a : Attempt} {m : Message} {noise : List Bytes}
    (hnoise : ∀ buf ∈ noise, a.Skips aes key m buf) (rest : List Bytes) :
    readReplies aes key a.xmit (a.message m) (noise ++ rest) =
      readReplies aes key a.xmit (a.message m) rest := by
  induction noise with
  | nil => rfl
  | cons buf noise ih =>
    have hrest := ih fun b hb => hnoise b (List.mem_cons_of_mem buf hb)
    rw [List.cons_append, readReplies]
    rcases hnoise buf List.mem_cons_self with hlong | ⟨r, hr⟩
    · rw [if_pos hlong]
      exact hrest
    · split_ifs
      · exact hrest
      · rw [hr]
        exact hrest

/-- **An exchange returns the first reply that is accepted**, whatever is skipped before
it and however many attempts time out. -/
theorem exchange_accepts {m r : Message} {before after : List Attempt} {a : Attempt}
    {noise rest : List Bytes} {buf : Bytes} (hthird : before.length < 3)
    (hbefore : ∀ b ∈ before, b.failed = false ∧ ∀ buf ∈ b.received, b.Skips aes key m buf)
    (hreceived : a.received = noise ++ buf :: rest) (hnoise : ∀ buf ∈ noise, a.Skips aes key m buf)
    (hvalid : (a.message m).Valid) (hsize : buf.length ≤ Ntp.maxPacketSize)
    (haccept : checkReply aes buf key a.xmit (a.message m) = .ok r) :
    exchange aes key m (before ++ a :: after) = .ok r := by
  have hsent : ∀ b : Attempt, requestPacket aes key (b.message m) b.xmit =
      .ok (key.append aes ((requestHeader b.xmit).marshal ++ (b.message m).field)) :=
    fun b => requestPacket_ok_iff.mpr ⟨Attempt.message_valid hvalid, rfl⟩
  have hloop : ∀ {before : List Attempt} (tail : List Attempt),
      (∀ b ∈ before, b.failed = false ∧ ∀ buf ∈ b.received, b.Skips aes key m buf) →
      exchangeLoop aes key m (before ++ tail) = exchangeLoop aes key m tail := by
    intro before tail hbefore
    induction before with
    | nil => rfl
    | cons b before ih =>
      obtain ⟨hfailed, hskips⟩ := hbefore b List.mem_cons_self
      have hread : readReplies aes key b.xmit (b.message m) b.received = none := by
        have h := readReplies_skip hskips []
        rw [List.append_nil] at h
        rw [h]
        rfl
      rw [List.cons_append, exchangeLoop, hsent]
      dsimp only
      rw [hread]
      dsimp only
      rw [hfailed, if_neg Bool.false_ne_true]
      exact ih fun b hb => hbefore b (List.mem_cons_of_mem _ hb)
  obtain ⟨k, hk⟩ : ∃ k, 3 - before.length = k + 1 := ⟨2 - before.length, by omega⟩
  unfold exchange
  rw [List.take_append, List.take_of_length_le (by omega), hk, List.take_succ_cons, hloop _ hbefore,
    exchangeLoop, hsent]
  dsimp only
  rw [hreceived, readReplies_skip hnoise, readReplies, if_neg (by omega), haccept]

/-! ## The file -/

/-- The end of a chunk in a file of this length. -/
def chunkEnd (length i : ℕ) : ℕ :=
  min ((i + 1) * chunkSize) length

/-- **The chunk loop assembles the file**, if each exchange returns its chunk. -/
theorem chunkLoop_assembles {aes : Cipher} {key : Key} {m : Manifest} {script : ℕ → List Attempt}
    {file : Bytes} (n i : ℕ)
    (hchunks : ∀ j, i ≤ j → j < i + n → ∃ r,
      exchange aes key (getChunk m (j * chunkSize)) (script (j + 1)) = .ok r ∧ r.result = resultOK ∧
        r.data = file.extract (j * chunkSize) (chunkEnd file.length j))
    (hlast : file.length ≤ (i + n) * chunkSize) (hfirst : ∀ j < i + n, j * chunkSize ≤ file.length)
    (hi : i * chunkSize ≤ file.length) :
    chunkLoop aes key m script n i (file.take (i * chunkSize)) = .ok file := by
  induction n generalizing i with
  | zero =>
    have hall : file.length ≤ i * chunkSize := hlast
    rw [chunkLoop, List.take_of_length_le hall]
  | succ n ih =>
    obtain ⟨r, hr, hok, hdata⟩ := hchunks i (le_refl i) (by omega)
    -- what has been assembled grows by the chunk
    have hjoin : file.take (i * chunkSize) ++ r.data = file.take ((i + 1) * chunkSize) := by
      have hstep : i * chunkSize ≤ (i + 1) * chunkSize := Nat.mul_le_mul_right _ (Nat.le_succ i)
      have hle : i * chunkSize ≤ chunkEnd file.length i := le_min hstep hi
      rw [hdata, ← Octets.extract_eq_take, Octets.extract_append_extract file (Nat.zero_le _) hle,
        Octets.extract_eq_take]
      unfold chunkEnd
      rcases min_cases ((i + 1) * chunkSize) file.length with ⟨hmin, -⟩ | ⟨hmin, hlt⟩
      · rw [hmin]
      · rw [hmin, List.take_length, List.take_of_length_le hlt.le]
    rw [chunkLoop, hr]
    dsimp only
    rw [if_neg (not_not.mpr hok), hjoin]
    rcases Nat.lt_or_ge file.length ((i + 1) * chunkSize) with hshort | hlong
    · -- the file has ended: this was its last chunk
      have hn : n = 0 := by
        by_contra hne
        have h := hfirst (i + 1) (by omega)
        omega
      subst hn
      rw [chunkLoop, List.take_of_length_le hshort.le]
    · have hassoc : i + 1 + n = i + (n + 1) := by omega
      refine ih (i + 1) ?_ ?_ ?_ hlong
      · intro j hij hj
        exact hchunks j (by omega) (by omega)
      · rw [hassoc]
        exact hlast
      · rw [hassoc]
        exact hfirst

/-- The chunks cover the file, and each begins inside it. -/
theorem chunks_bounds (m : Manifest) :
    m.size ≤ m.chunks * chunkSize ∧ ∀ j < m.chunks, j * chunkSize ≤ m.size := by
  unfold Manifest.chunks chunkSize
  constructor
  · omega
  · intro j hj
    omega

/-- At the normal interval a file fits into the transfer bound. -/
theorem transfer_fits {m : Manifest} (hsize : m.size ≤ 65536) (spacing : ℤ) :
    ¬(30 * minute ≤ m.chunks * min spacing (4 * second)) := by
  have hchunks : (m.chunks : ℤ) ≤ 256 := by
    unfold Manifest.chunks chunkSize
    omega
  have hspacing : min spacing (4 * second) ≤ 4 * second := min_le_right _ _
  have hbound : (m.chunks : ℤ) * min spacing (4 * second) ≤ 256 * (4 * second) := by
    calc (m.chunks : ℤ) * min spacing (4 * second)
        ≤ m.chunks * (4 * second) := mul_le_mul_of_nonneg_left hspacing (Int.natCast_nonneg _)
      _ ≤ 256 * (4 * second) := mul_le_mul_of_nonneg_right hchunks (by decide)
  have hlt : 256 * (4 * second) < 30 * minute := by decide
  omega

/-- Every exchange of the chunk loop returns its chunk of the object. -/
def Chunked (aes : Cipher) (key : Key) (sha256 : Bytes → Digest) (o : Object)
    (script : ℕ → List Attempt) : Prop :=
  ∀ j < (o.manifest sha256).chunks, ∃ r,
    exchange aes key (getChunk (o.manifest sha256) (j * chunkSize)) (script (j + 1)) = .ok r ∧
      r.result = resultOK ∧ r.data = o.data.extract (j * chunkSize) (chunkEnd o.data.length j)

/-- The chunks of an object give its bytes. -/
theorem chunkLoop_object {o : Object} {script : ℕ → List Attempt}
    (h : Chunked aes key sha256 o script) :
    chunkLoop aes key (o.manifest sha256) script (o.manifest sha256).chunks 0 [] = .ok o.data := by
  obtain ⟨hcover, hinside⟩ := chunks_bounds (o.manifest sha256)
  have hloop := @chunkLoop_assembles aes key (o.manifest sha256) script o.data
    (o.manifest sha256).chunks 0 (fun j _ hj => h j (by omega)) ?_ ?_ ?_
  · rwa [Nat.zero_mul, List.take_zero] at hloop
  · rw [Nat.zero_add]
    exact hcover
  · rw [Nat.zero_add]
    exact hinside
  · rw [Nat.zero_mul]
    exact Nat.zero_le _

/-- **A transfer whose exchanges all return the chunks of one file returns that file.** -/
theorem fetch_object {cached : Option Object} {now spacing : ℤ} {script : ℕ → List Attempt}
    {first : Message} {o : Object}
    (hfirst : exchange aes key (probe sha256 cached) (script 0) = .ok first)
    (htable : first.result = resultOK) (hman : first.manifest = o.manifest sha256)
    (hcheck : checkManifest sha256 cached (o.manifest sha256) now = .ok ())
    (hnew : cached.map (·.manifest sha256) ≠ some (o.manifest sha256))
    (hchunks : Chunked aes key sha256 o script) :
    fetch aes key sha256 cached now spacing script = .ok (some o) := by
  unfold fetch
  rw [hfirst]
  dsimp only
  rw [if_neg (by rw [htable]; decide), hman]
  unfold fetchObject
  rw [hcheck]
  dsimp only
  rw [if_neg hnew, if_neg (transfer_fits o.size_le spacing), chunkLoop_object hchunks]
  dsimp only
  rw [newObject_data]
  dsimp only
  rw [if_neg (not_not.mpr rfl)]

/-- **What a transfer returns is named by the first manifest**, whatever arrives during
it. -/
theorem fetch_named {cached : Option Object} {now spacing : ℤ} {script : ℕ → List Attempt}
    {found : Option Object} (h : fetch aes key sha256 cached now spacing script = .ok found) :
    ∃ first, exchange aes key (probe sha256 cached) (script 0) = .ok first ∧
      (found = none ∧ cached.map (·.manifest sha256) = some first.manifest ∨
        ∃ o, found = some o ∧ o.manifest sha256 = first.manifest) := by
  unfold fetch at h
  split at h
  · cases h
  rename_i first hfirst
  refine ⟨first, hfirst, ?_⟩
  split_ifs at h
  · cases h
  unfold fetchObject at h
  split at h
  · cases h
  by_cases hcached : cached.map (·.manifest sha256) = some first.manifest
  · rw [if_pos hcached] at h
    exact .inl ⟨(Except.ok.inj h).symm, hcached⟩
  rw [if_neg hcached] at h
  split_ifs at h
  · cases h
  split at h
  · cases h
  split at h
  · cases h
  rename_i o ho
  split_ifs at h with hman
  · cases h
  · exact .inr ⟨o, (Except.ok.inj h).symm, not_not.mp hman⟩

end Carillon.Leap
