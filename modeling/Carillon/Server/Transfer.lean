/-
# A leap table from the server to the client

The two ends of CLPS together.  What the server answers to a request of the client
passes the checks of the client, so a transfer from a distributor that keeps its object
returns that object.  If the object changes on the way the transfer fails, or returns
the one that the first manifest named.
-/
import Carillon.Leap.Fetch
import Carillon.Server.Safety

namespace Carillon.Server

open Ntp (Packet Key Cipher)
open Leap (Digest Distributor Message Object Manifest Attempt)

/-! ## One reply -/

/-- A reply of the server to the datagram `sent`: the key is shared and authorised, the
budgets of the limiter and of the distributor admit the request, `object` is what may be
served at that time, and the stratum of the answer is not zero. -/
structure Replied (cr : Crypto) (key : Key) (sent : Bytes) (object : Option Object)
    (out : Bytes) where
  handler : Handler
  env : Env
  client : AddrPort
  receive : ℤ
  mono : ℤ
  leap : Distributor
  bucket : BucketKey
  shared : handler.policy.keys key.id = some key
  distributor : env.leap = some leap
  authorized : leap.authorized key.id = true
  budget : (leap.spend key.id mono env.others).1 = true
  admitted : (handler.handle cr env sent client receive mono).drawn = some (bucket, true)
  object_eq : Leap.servable env.current env.wall = object
  response : (handler.handle cr env sent client receive mono).response = some out
  stratum : ∀ d, Ntp.decode out = .ok d → d.packet.stratum ≠ 0

/-- The request for a message as the server decodes it. -/
def requested (aes : Cipher) (key : Key) (m : Message) (xmit : Ntp.Time) : Ntp.Decoded where
  packet := Leap.requestHeader xmit
  mac := some ⟨key.id,
    (Ntp.cmac aes key.secret ((Leap.requestHeader xmit).marshal ++ m.field)).toList⟩
  macOffset := 48 + m.field.length

section Request

variable {aes : Cipher} {key : Key} {m : Message} {xmit : Ntp.Time} {sent : Bytes}

/-- The server decodes the request of the client. -/
theorem decode_request (h : Leap.requestPacket aes key m xmit = .ok sent) :
    Ntp.decode sent = .ok (requested aes key m xmit) := by
  obtain ⟨hvalid, rfl⟩ := Leap.requestPacket_ok_iff.mp h
  exact @Leap.decode_signed aes key (Leap.requestHeader xmit) rfl m hvalid

/-- It verifies under the key that both ends hold. -/
theorem verify_request {p : Policy} (hkey : p.keys key.id = some key)
    (h : Leap.requestPacket aes key m xmit = .ok sent) :
    p.verify aes sent (requested aes key m xmit) = some (some key) := by
  obtain ⟨-, rfl⟩ := Leap.requestPacket_ok_iff.mp h
  have hverify := @verify_signed aes p key hkey ((Leap.requestHeader xmit).marshal ++ m.field)
    (Leap.requestHeader xmit)
  rwa [List.length_append, Ntp.marshal_length] at hverify

end Request

section Reply

variable {cr : Crypto} {key : Key} {m : Message} {xmit : Ntp.Time} {sent out : Bytes}
  {object : Option Object}

/-- The distributor answers the message itself. -/
theorem Replied.extension (h : Replied cr key sent object out)
    (hsent : Leap.requestPacket cr.aes key m xmit = .ok sent) {message : Option Message}
    (hext : (Server.extension cr.sha256 h.env sent (requested cr.aes key m xmit)
      (some key) h.mono).2 = .ok message) :
    ∃ r, message = some r ∧ Leap.reply cr.sha256 m object = .ok r := by
  obtain ⟨hvalid, rfl⟩ := Leap.requestPacket_ok_iff.mp hsent
  have hrespond := Leap.respond_spent h.authorized h.budget cr.sha256 m h.env.wall h.env.current
  rw [h.object_eq] at hrespond
  unfold Server.extension requested at hext
  rw [h.distributor] at hext
  dsimp only at hext
  rw [if_pos ⟨rfl, rfl, h.authorized⟩, Leap.signed_region, Leap.decodeFields_field hvalid] at hext
  dsimp only at hext
  rw [hrespond] at hext
  cases hr : Leap.reply cr.sha256 m object with
  | error e =>
    rw [hr] at hext
    cases hext
  | ok r =>
    rw [hr] at hext
    exact ⟨r, (Except.ok.inj hext).symm, rfl⟩

/-- The form of the reply: the message that `Reply` makes, signed with the shared key,
behind a header with the origin of the request. -/
theorem Replied.form (h : Replied cr key sent object out)
    (hsent : Leap.requestPacket cr.aes key m xmit = .ok sent) :
    ∃ (r : Message) (header : Packet), Leap.reply cr.sha256 m object = .ok r ∧ r.Valid ∧
      out = key.append cr.aes (header.marshal ++ r.field) ∧ header.version = 4 ∧
      header.mode = .server ∧ header.originTime = xmit := by
  obtain ⟨d, hreq, hans⟩ := handle_answer h.response
  obtain rfl := Except.ok.inj ((decode_request hsent).symm.trans hreq.decoded)
  rw [h.admitted] at hans
  cases hans with
  | @time rkey message _ _ hadmitted hextension hreply =>
    obtain rfl : some key = rkey :=
      Option.some.inj ((verify_request h.shared hsent).symm.trans hadmitted.verify)
    obtain ⟨r, rfl, hr⟩ := h.extension hsent hextension
    obtain ⟨hversion, hmode, horigin, -, -, -⟩ :=
      sent_fixed h.handler.policy (Leap.requestHeader xmit)
      h.receive h.env.status h.env.status.refID (!h.env.status.synced) h.env.transmit
    exact ⟨r, _, hr, valid_of_reply hreply r rfl, eq_of_reply hreply, hversion, hmode, horigin⟩

/-- **Each reply of the server passes the checks of the client**, and is what `Reply`
makes of the message and the object. -/
theorem Replied.accepted (h : Replied cr key sent object out)
    (hsent : Leap.requestPacket cr.aes key m xmit = .ok sent) :
    ∃ r, Leap.reply cr.sha256 m object = .ok r ∧ Leap.checkReply cr.aes out key xmit m = .ok r ∧
      out.length ≤ Ntp.maxPacketSize := by
  obtain ⟨r, header, hr, hvalid, rfl, hversion, hmode, rfl⟩ := h.form hsent
  have hstratum : header.stratum ≠ 0 := h.stratum _ (Leap.decode_signed cr.aes key hversion hvalid)
  obtain ⟨-, hreplies⟩ := Leap.reply_replies hr
  have hcorrelate : Leap.correlate r m = .ok r :=
    Leap.correlate_replies hreplies.id hreplies.operation hreplies.chunk
  refine ⟨r, hr, Leap.checkReply_signed hvalid hversion hmode hstratum hcorrelate, ?_⟩
  obtain ⟨-, hle, -⟩ := Leap.length_bounds hvalid
  rw [Ntp.append_length, List.length_append, Ntp.marshal_length, Leap.field_length hvalid,
    Ntp.maxPacketSize]
  omega

end Reply

/-! ## One exchange -/

/-- The exchange is answered: in one of the three attempts the reply of the server
arrives, and what arrives before it is skipped. -/
structure Delivered (cr : Crypto) (key : Key) (m : Message) (object : Option Object)
    (attempts : List Attempt) where
  before : List Attempt
  attempt : Attempt
  after : List Attempt
  noise : List Bytes
  sent : Bytes
  out : Bytes
  rest : List Bytes
  attempts_eq : attempts = before ++ attempt :: after
  third : before.length < 3
  timedOut : ∀ b ∈ before, b.failed = false ∧ ∀ buf ∈ b.received, b.Skips cr.aes key m buf
  received : attempt.received = noise ++ out :: rest
  skipped : ∀ buf ∈ noise, attempt.Skips cr.aes key m buf
  sent_eq : Leap.requestPacket cr.aes key (attempt.message m) attempt.xmit = .ok sent
  replied : Replied cr key sent object out

section Delivery

variable {cr : Crypto} {key : Key} {object : Option Object} {attempts : List Attempt}

/-- It returns what `Reply` makes of the message and the object. -/
theorem Delivered.exchange {m : Message} (h : Delivered cr key m object attempts) :
    ∃ r, Leap.exchange cr.aes key m attempts = .ok r ∧ (h.attempt.message m).Valid ∧
      Leap.reply cr.sha256 (h.attempt.message m) object = .ok r := by
  obtain ⟨r, hreply, haccept, hsize⟩ := h.replied.accepted h.sent_eq
  have hvalid := (Leap.requestPacket_ok_iff.mp h.sent_eq).1
  refine ⟨r, ?_, hvalid, hreply⟩
  rw [h.attempts_eq]
  exact Leap.exchange_accepts h.third h.timedOut h.received h.skipped hvalid hsize haccept

/-- A probe is answered with the manifest of the object. -/
theorem Delivered.probe {cached : Option Object} {o : Object}
    (h : Delivered cr key (Leap.probe cr.sha256 cached) (some o) attempts) :
    ∃ first, Leap.exchange cr.aes key (Leap.probe cr.sha256 cached) attempts = .ok first ∧
      first.result = Leap.resultOK ∧ first.manifest = o.manifest cr.sha256 := by
  obtain ⟨r, hexchange, hvalid, hreply⟩ := h.exchange
  rw [Leap.reply_probe cr.sha256 (Message.validate_ok_iff _ |>.mpr hvalid) rfl] at hreply
  obtain rfl := Except.ok.inj hreply
  exact ⟨_, hexchange, rfl, rfl⟩

/-- A request for a chunk is answered with the chunk. -/
theorem Delivered.chunk {o : Object} {j : ℕ} (hj : j < (o.manifest cr.sha256).chunks)
    (h : Delivered cr key (Leap.getChunk (o.manifest cr.sha256) (j * Leap.chunkSize))
      (some o) attempts) :
    ∃ r, Leap.exchange cr.aes key
      (Leap.getChunk (o.manifest cr.sha256) (j * Leap.chunkSize)) attempts =
      .ok r ∧ r.result = Leap.resultOK ∧
        r.data = o.data.extract (j * Leap.chunkSize) (Leap.chunkEnd o.data.length j) := by
  obtain ⟨r, hexchange, hvalid, hreply⟩ := h.exchange
  have hman : (h.attempt.message
    (Leap.getChunk (o.manifest cr.sha256) (j * Leap.chunkSize))).manifest =
      o.manifest cr.sha256 := rfl
  rw [Leap.reply_get cr.sha256 (Message.validate_ok_iff _ |>.mpr hvalid) rfl,
    Option.filter_some, hman, if_pos (decide_eq_true rfl)] at hreply
  obtain rfl := Except.ok.inj hreply
  refine ⟨_, hexchange, rfl, ?_⟩
  have hinside : j * Leap.chunkSize ≤ o.data.length :=
    (Leap.chunks_bounds (o.manifest cr.sha256)).2 j hj
  have hmax : o.data.length ≤ 65536 := o.size_le
  have hoffset : (BitVec.ofNat 32 (j * Leap.chunkSize)).toNat = j * Leap.chunkSize := by
    rw [BitVec.toNat_ofNat]
    exact Nat.mod_eq_of_lt (by omega)
  have hend : j * Leap.chunkSize + min Leap.chunkSize (o.data.length - j * Leap.chunkSize) =
      Leap.chunkEnd o.data.length j := by
    unfold Leap.chunkEnd
    rw [Nat.succ_mul]
    omega
  show o.data.extract (BitVec.ofNat 32 (j * Leap.chunkSize)).toNat
    ((BitVec.ofNat 32 (j * Leap.chunkSize)).toNat +
      min Leap.chunkSize (o.data.length - (BitVec.ofNat 32 (j * Leap.chunkSize)).toNat)) = _
  rw [hoffset, hend]

end Delivery

/-! ## Transfers -/

/-- **A transfer, end to end.**  Every reply of the server to a probe or a request for a
chunk passes `checkReply`.  Against a distributor that keeps an object the chunk loop
assembles the bytes of that object, and `fetch` returns it where the manifest is
accepted and new.  Whatever else happens on the way, what `fetch` returns is named by
the first manifest: nothing, if the client holds that object already, or an object with
that manifest, which is the one of the distributor unless the digests collide. -/
theorem clps_transfer (cr : Crypto) (key : Key) :
    (∀ (m : Message) (xmit : Ntp.Time) (sent out : Bytes) (object : Option Object),
      Leap.requestPacket cr.aes key m xmit = .ok sent → Nonempty (Replied cr key sent object out) →
      ∃ r, Leap.reply cr.sha256 m object = .ok r ∧ Leap.checkReply cr.aes out key xmit m = .ok r) ∧
    (∀ (o : Object) (script : ℕ → List Attempt),
      (∀ j < (o.manifest cr.sha256).chunks, Nonempty (Delivered cr key
        (Leap.getChunk (o.manifest cr.sha256) (j * Leap.chunkSize)) (some o) (script (j + 1)))) →
      Leap.chunkLoop cr.aes key (o.manifest cr.sha256) script (o.manifest cr.sha256).chunks 0 [] =
          .ok o.data ∧
        ∀ (cached : Option Object) (now spacing : ℤ),
          Nonempty (Delivered cr key (Leap.probe cr.sha256 cached) (some o) (script 0)) →
          Leap.checkManifest cr.sha256 cached (o.manifest cr.sha256) now = .ok () →
          cached.map (·.manifest cr.sha256) ≠ some (o.manifest cr.sha256) →
          Leap.fetch cr.aes key cr.sha256 cached now spacing script = .ok (some o)) ∧
    ∀ (cached : Option Object) (now spacing : ℤ) (script : ℕ → List Attempt)
      (found : Option Object),
      Leap.fetch cr.aes key cr.sha256 cached now spacing script = .ok found →
      ∃ first, Leap.exchange cr.aes key (Leap.probe cr.sha256 cached) (script 0) = .ok first ∧
        (found = none ∧ cached.map (·.manifest cr.sha256) = some first.manifest ∨
          ∃ o, found = some o ∧ o.manifest cr.sha256 = first.manifest ∧
            ∀ o₁ : Object, o₁.manifest cr.sha256 = first.manifest →
              (cr.sha256 o.data = cr.sha256 o₁.data → o.data = o₁.data) → o = o₁) := by
  refine ⟨?_, ?_, ?_⟩
  · rintro m xmit sent out object hsent ⟨hreplied⟩
    obtain ⟨r, hreply, haccept, -⟩ := hreplied.accepted hsent
    exact ⟨r, hreply, haccept⟩
  · intro o script hdelivered
    have hchunks : Leap.Chunked cr.aes key cr.sha256 o script := by
      intro j hj
      obtain ⟨hchunk⟩ := hdelivered j hj
      exact hchunk.chunk hj
    refine ⟨Leap.chunkLoop_object hchunks, ?_⟩
    rintro cached now spacing ⟨hprobe⟩ hcheck hnew
    obtain ⟨first, hfirst, htable, hman⟩ := hprobe.probe
    exact Leap.fetch_object hfirst htable hman hcheck hnew hchunks
  · intro cached now spacing script found h
    obtain ⟨first, hfirst, hfound⟩ := Leap.fetch_named h
    refine ⟨first, hfirst, hfound.imp_right ?_⟩
    rintro ⟨o, rfl, hman⟩
    refine ⟨o, rfl, hman, ?_⟩
    intro o₁ hman₁ hash
    have hdigest : cr.sha256 o.data = cr.sha256 o₁.data :=
      congrArg Manifest.digest (hman.trans hman₁.symm)
    exact Object.ext_data (hash hdigest)

/-! ### A transfer from the lab server -/

/-- The lab server in 1972, with the table of that year for the key of its clients. -/
def labLeapEnv : Env :=
  { labEnv with
    wall := Leap.ntpTime 2285000000
    leap := some (Leap.newDistributor [1] 0 none)
    current := some Leap.list1972 }

/-- A message as it is sent, and the exchange of it with the server. -/
def labMessage (m : Message) : Message := { m with id := Vector.replicate 16 9 }

def labSent (m : Message) : Bytes :=
  labKey.append labCrypto.aes ((Leap.requestHeader 5).marshal ++ (labMessage m).field)

def labReply (m : Message) : Result :=
  labConfig.handler.handle labCrypto labLeapEnv (labSent m) labClient 0 0

/-- The attempt that receives the reply, after an empty datagram. -/
def labAttempt (m : Message) : Attempt :=
  ⟨Vector.replicate 16 9, 5, [[], (labReply m).response.getD []], false⟩

def labProbe : Message := Leap.probe labCrypto.sha256 none

def labChunk : Message := Leap.getChunk (Leap.list1972.manifest labCrypto.sha256) 0

theorem labReply_answers : ∀ m ∈ [labProbe, labChunk], (labMessage m).validate = .ok () ∧
    (labReply m).drawn.map (·.2) = some true ∧ (labReply m).response ≠ none ∧
    (Ntp.decode ((labReply m).response.getD [])).toOption.map (·.packet.stratum) = some 1 := by
  decide +kernel

theorem labAttempt_delivered {m : Message} (hm : m ∈ [labProbe, labChunk]) :
    Nonempty (Delivered labCrypto labKey m (some Leap.list1972) [labAttempt m]) := by
  obtain ⟨hvalid, hdrawn, hsome, hstratum⟩ := labReply_answers m hm
  obtain ⟨⟨bucket, -⟩, hbucket, rfl⟩ := Option.map_eq_some_iff.mp hdrawn
  obtain ⟨out, hout⟩ := Option.ne_none_iff_exists'.mp hsome
  have hservable : Leap.servable (some Leap.list1972) (Leap.ntpTime 2285000000) =
      some Leap.list1972 := by
    rw [Leap.servable, Option.filter_some, if_pos (by decide +kernel)]
  have hid : (labAttempt m).message m = labMessage m := rfl
  rw [hout, Option.getD_some] at hstratum
  refine ⟨⟨[], labAttempt m, [], [[]], labSent m, out, [], rfl, by decide, ?_, ?_, ?_, ?_, ?_⟩⟩
  · exact fun b hb => absurd hb List.not_mem_nil
  · show [[], (labReply m).response.getD []] = _
    rw [hout]
    rfl
  · intro buf hbuf
    rw [List.mem_singleton.mp hbuf]
    exact .inr ⟨_, rfl⟩
  · rw [hid]
    exact Leap.requestPacket_ok_iff.mpr ⟨(Message.validate_ok_iff _).mp hvalid, rfl⟩
  · refine ⟨labConfig.handler, labLeapEnv, labClient, 0, 0, Leap.newDistributor [1] 0 none, bucket,
      rfl, rfl, by decide, by decide, hbucket, hservable, hout, ?_⟩
    intro d hd
    rw [hd] at hstratum
    have hone : d.packet.stratum = 1 := Option.some.inj hstratum
    rw [hone]
    decide

/-- The transfer of the table: its exchanges are the probe and the one chunk. -/
theorem clps_transfer_list1972 :
    Leap.fetch labCrypto.aes labKey labCrypto.sha256 none (Leap.ntpTime 2285000000) second
      (fun i => [labAttempt (if i = 0 then labProbe else labChunk)]) =
        .ok (some Leap.list1972) := by
  have hchunks : (Leap.list1972.manifest labCrypto.sha256).chunks = 1 := by decide +kernel
  refine ((clps_transfer labCrypto labKey).2.1 Leap.list1972 _ ?_).2 none _ _ ?_ ?_ ?_
  · intro j hj
    obtain rfl : j = 0 := by omega
    exact labAttempt_delivered (List.mem_cons_of_mem _ List.mem_cons_self)
  · exact labAttempt_delivered List.mem_cons_self
  · decide +kernel
  · exact fun h => by cases h

end Carillon.Server
