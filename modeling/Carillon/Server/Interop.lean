/-
# The client and the server together

What the NTP source makes of the answers of the server.  A request of the source is
answered with a header that carries its transmit time back, signed as the request was
(`Contact.answer`); so the source assesses that header, and what it makes of it follows
from the status of the server and the four timestamps.

Timestamps on the wire are modulo an era, and the one that is zero means that the time is
unknown.  So a sample is accepted within 68 years, and if neither time of the server is
at the start of an era; the cases at the end of the module are not.
-/
import Carillon.Server.Safety
import Carillon.Source.Exchange

namespace Carillon.Server

open Ntp (Packet Key Cipher Decoded)
open Source (ExchangeParams ExchangeResult ExchangeError Arrival Socket SocketError)

/-- An exchange in which the server answers: the request is handled in some state of a
server that shares the key of the client, and the response arrives, perhaps after other
datagrams that do not answer the request. -/
structure Contact (cr : Crypto) where
  params : ExchangeParams
  nonce : Ntp.Time
  handler : Handler
  env : Env
  client : AddrPort
  receive : ℤ
  mono : ℤ
  t1 : ℤ
  noise : List Arrival
  arrival : Arrival
  rest : List Arrival
  ended : SocketError
  shared : ∀ key ∈ params.key, handler.policy.keys key.id = some key
  response : (handler.handle cr env (params.request cr.aes nonce) client receive mono).response =
    some arrival.bytes
  sender : Source.sameEndpoint arrival.sender params.addr = true
  skipped : ∀ a ∈ noise, params.answer? nonce a = none

namespace Contact

variable {cr : Crypto} (c : Contact cr)

/-- What the server did. -/
def result : Result :=
  c.handler.handle cr c.env (c.params.request cr.aes c.nonce) c.client c.receive c.mono

/-- What the client returns. -/
def outcome : ExchangeResult × Option ExchangeError :=
  c.params.exchange cr.aes c.nonce ⟨none, c.t1, c.noise ++ c.arrival :: c.rest, c.ended⟩

/-- The limiter refused the request, or granted it. -/
def Limited : Prop := ∃ bucket, c.result.drawn = some (bucket, false)

def Granted : Prop := ∃ bucket, c.result.drawn = some (bucket, true)

/-- The header of the answer. -/
def kiss : Packet :=
  c.handler.policy.sent (c.params.packet c.nonce) c.receive c.env.status Ntp.kissRATE true
    c.env.transmit

def time : Packet :=
  c.handler.policy.sent (c.params.packet c.nonce) c.receive c.env.status c.env.status.refID
    (!c.env.status.synced) c.env.transmit

/-! ## The answer -/

theorem decode_request :
    Ntp.decode (c.params.request cr.aes c.nonce) =
      .ok ⟨c.params.packet c.nonce, c.params.seal cr.aes (c.params.packet c.nonce), 48⟩ :=
  Source.decode_sealed rfl

/-- The server verifies the request under the key of the client. -/
theorem verify_request :
    c.handler.policy.verify cr.aes (c.params.request cr.aes c.nonce)
      ⟨c.params.packet c.nonce, c.params.seal cr.aes (c.params.packet c.nonce), 48⟩ =
      some c.params.key := by
  have hshared := c.shared
  unfold ExchangeParams.request ExchangeParams.seal
  cases hkey : c.params.key with
  | none => rfl
  | some key =>
    rw [hkey] at hshared
    have hverify := @verify_signed cr.aes c.handler.policy key (hshared key rfl)
      (c.params.packet c.nonce).marshal (c.params.packet c.nonce)
    rwa [Ntp.marshal_length] at hverify

/-- A request without extension fields asks for no leap table. -/
theorem no_extension {message : Option Leap.Message} {key : Option Key}
    (h : (extension cr.sha256 c.env (c.params.request cr.aes c.nonce)
      ⟨c.params.packet c.nonce, c.params.seal cr.aes (c.params.packet c.nonce), 48⟩ key c.mono).2 =
        .ok message) :
    message = none := by
  have hregion : (c.params.request cr.aes c.nonce).extract Ntp.headerSize 48 = [] := by
    show ((c.params.request cr.aes c.nonce).drop 48).take 0 = []
    exact List.take_zero
  have hfields : Leap.decodeFields [] = .ok none := rfl
  unfold extension at h
  split at h
  · dsimp only at h
    rw [hregion, hfields] at h
    split_ifs at h
    · exact (Except.ok.inj h).symm
    · exact (Except.ok.inj h).symm
  · exact (Except.ok.inj h).symm

/-- **The answer of the server**: a header with the origin of the request, signed as the
request was. -/
theorem answer :
    c.Limited ∧ c.arrival.bytes = c.params.sealed cr.aes c.kiss ∨
      c.Granted ∧ c.arrival.bytes = c.params.sealed cr.aes c.time := by
  have hseal : ∀ {refID : Ntp.RefID} {special : Bool} {message : Option Leap.Message} {out : Bytes},
      message = none →
      c.handler.policy.reply cr.aes (c.params.packet c.nonce) c.receive c.env.status refID
        c.params.key special message c.env.transmit = some out →
      out = c.params.sealed cr.aes (c.handler.policy.sent (c.params.packet c.nonce) c.receive
        c.env.status refID special c.env.transmit) := by
    rintro refID special message out rfl hreply
    rw [eq_of_reply hreply]
    show sign cr.aes c.params.key (_ ++ []) = _
    rw [List.append_nil]
    rfl
  obtain ⟨d, hreq, hans⟩ := handle_answer c.response
  obtain rfl := Except.ok.inj (c.decode_request.symm.trans hreq.decoded)
  generalize hdrawn :
    (c.handler.handle cr c.env (c.params.request cr.aes c.nonce) c.client c.receive
    c.mono).drawn = drawn at hans
  cases hans with
  | nak hunverified hnak =>
    exact absurd (hunverified.symm.trans c.verify_request) nofun
  | @kiss key bucket _ hadmitted hreply =>
    obtain rfl := Option.some.inj (c.verify_request.symm.trans hadmitted.verify)
    exact .inl ⟨⟨bucket, hdrawn⟩, hseal rfl hreply⟩
  | @time key message bucket _ hadmitted hextension hreply =>
    obtain rfl := Option.some.inj (c.verify_request.symm.trans hadmitted.verify)
    exact .inr ⟨⟨bucket, hdrawn⟩, hseal (c.no_extension hextension) hreply⟩

theorem kiss_fixed :
    c.kiss.version = Ntp.version ∧ c.kiss.mode = .server ∧ c.kiss.originTime = c.nonce := by
  obtain ⟨hversion, hmode, horigin, -⟩ :=
    sent_fixed c.handler.policy (c.params.packet c.nonce) c.receive
    c.env.status Ntp.kissRATE true c.env.transmit
  exact ⟨hversion, hmode, horigin⟩

theorem time_fixed :
    c.time.version = Ntp.version ∧ c.time.mode = .server ∧ c.time.originTime = c.nonce := by
  obtain ⟨hversion, hmode, horigin, -⟩ :=
    sent_fixed c.handler.policy (c.params.packet c.nonce) c.receive
    c.env.status c.env.status.refID (!c.env.status.synced) c.env.transmit
  exact ⟨hversion, hmode, horigin⟩

/-- The limiter has one answer. -/
theorem not_limited_granted (hlimited : c.Limited) (hgranted : c.Granted) : False := by
  obtain ⟨k, hk⟩ := hlimited
  obtain ⟨k', hk'⟩ := hgranted
  cases hk.symm.trans hk'

/-! ## What the client makes of it -/

/-- What the client has recorded. -/
def recorded (pkt : Packet) : ExchangeResult := c.params.recorded cr.aes c.t1 c.arrival pkt

/-- The time of arrival. -/
def t4 : ℤ := c.params.t4 c.arrival

theorem outcome_sealed {pkt : Packet} (hbytes : c.arrival.bytes = c.params.sealed cr.aes pkt)
    (hfixed : pkt.version = Ntp.version ∧ pkt.mode = .server ∧ pkt.originTime = c.nonce) :
    c.outcome = c.params.assess (c.recorded pkt) pkt :=
  Source.exchange_sealed c.skipped c.sender hbytes hfixed.1 hfixed.2.1 hfixed.2.2 c.t1 c.ended

theorem outcome_limited (h : c.Limited) :
    c.outcome = c.params.assess (c.recorded c.kiss) c.kiss := by
  rcases c.answer with ⟨-, hbytes⟩ | ⟨hgranted, -⟩
  · exact c.outcome_sealed hbytes c.kiss_fixed
  · exact (c.not_limited_granted h hgranted).elim

theorem outcome_granted (h : c.Granted) :
    c.outcome = c.params.assess (c.recorded c.time) c.time := by
  rcases c.answer with ⟨hlimited, -⟩ | ⟨-, hbytes⟩
  · exact (c.not_limited_granted hlimited h).elim
  · exact c.outcome_sealed hbytes c.time_fixed

/-- The response decodes, answers the request, and verifies under the key of the client,
if there is one. -/
def Understood : Prop :=
  ∃ d, Ntp.decode c.arrival.bytes = .ok d ∧ d.packet.originTime = c.nonce ∧
    d.mac.isSome = c.params.key.isSome ∧ c.params.authentic cr.aes c.arrival.bytes d = true

theorem understood_sealed {pkt : Packet} (hbytes : c.arrival.bytes = c.params.sealed cr.aes pkt)
    (hfixed : pkt.version = Ntp.version ∧ pkt.mode = .server ∧ pkt.originTime = c.nonce) :
    c.Understood := by
  refine ⟨⟨pkt, c.params.seal cr.aes pkt, 48⟩, ?_, hfixed.2.2, Option.isSome_map, ?_⟩
  · rw [hbytes]
    exact Source.decode_sealed hfixed.1
  · rw [hbytes]
    exact Source.authentic_sealed pkt

theorem kiss_code : c.kiss.stratum = 0 ∧ c.kiss.kissCode = Ntp.kissRATE.text := by
  have hstratum : c.kiss.stratum = 0 := by
    unfold kiss Policy.sent Policy.header
    dsimp only
    rw [if_pos rfl, if_pos rfl]
  have hrefID : c.kiss.referenceID = Ntp.kissRATE :=
    (sent_fixed c.handler.policy (c.params.packet c.nonce) c.receive c.env.status Ntp.kissRATE true
      c.env.transmit).2.2.2.2.2
  refine ⟨hstratum, ?_⟩
  have htext : Ntp.kissRATE.isText = true := by decide +kernel
  unfold Packet.kissCode Packet.isKiss
  rw [hrefID, hstratum, htext]
  rfl

/-- A refusal of the limiter is a kiss. -/
theorem limited_kiss (h : c.Limited) :
    c.outcome.2 = some (.kiss Ntp.kissRATE.text c.kiss c.params.key.isSome) := by
  obtain ⟨hstratum, hcode⟩ := c.kiss_code
  rw [c.outcome_limited h, Source.assess_kiss hstratum (by rw [hcode]; decide), hcode]
  rfl

/-- The reference id of an unsynchronised server is sent as it is, or as INIT. -/
theorem refID_ne {st : SystemStatus} (h : st.referenceID ≠ Ntp.kissRATE) :
    st.refID ≠ Ntp.kissRATE := by
  unfold SystemStatus.refID
  split_ifs
  · decide
  · exact h

/-- An unsynchronised server answers with stratum 16. -/
theorem unsynced_bogus (h : c.Granted) (hsynced : c.env.status.synced = false)
    (hrefID : c.env.status.referenceID ≠ Ntp.kissRATE) :
    c.outcome.2 = some (.bogus (.stratum 16)) := by
  have hstratum : c.time.stratum = 16 := by
    unfold time Policy.sent Policy.header
    dsimp only
    rw [hsynced, if_pos (by rfl), if_neg (refID_ne hrefID)]
  have hkiss : ¬c.time.isKiss = true := by
    unfold Packet.isKiss
    rw [hstratum]
    decide
  have hlarge : 15 < c.time.stratum := by
    rw [hstratum]
    decide
  rw [c.outcome_granted h]
  unfold ExchangeParams.assess
  dsimp only
  rw [if_neg hkiss, if_pos hlarge, hstratum]

/-- But `reply` tells a kiss by its reference id.  If the server is not synchronised and
the four bytes of its reference id are those of RATE, for instance because its last
source has the address 82.65.84.69, then its answer is a kiss. -/
theorem unsynced_rate (h : c.Granted) (hsynced : c.env.status.synced = false)
    (hrefID : c.env.status.referenceID = Ntp.kissRATE) :
    c.outcome.2 = some (.kiss Ntp.kissRATE.text c.kiss c.params.key.isSome) := by
  have hrate : c.env.status.refID = Ntp.kissRATE := by
    have hset : Ntp.kissRATE ≠ default := by decide +kernel
    unfold SystemStatus.refID
    rw [hrefID, if_neg fun hboth => hset hboth.2]
  have htime : c.time = c.kiss := by
    unfold time kiss
    rw [hsynced, hrate]
    rfl
  obtain ⟨hstratum, hcode⟩ := c.kiss_code
  rw [c.outcome_granted h, htime, Source.assess_kiss hstratum (by rw [hcode]; decide), hcode]
  rfl

/-! ## Samples -/

/-- The true round trip, in nanoseconds. -/
def trip : ℤ := c.t4 - c.t1 - (c.env.transmit - c.receive)

/-- The status is that of a server to take the time from, and so is the round trip. -/
structure Eligible : Prop where
  synced : c.env.status.synced = true
  stratum : 1 ≤ c.env.status.stratum ∧ c.env.status.stratum ≤ 15
  leap : c.env.status.leap ≠ .unsync
  rootDistance : (Ntp.shortFromSeconds c.env.status.rootDelay).seconds / 2 +
    (Ntp.shortFromSeconds c.env.status.rootDispersion).seconds < Source.maxRootDistance
  reference : c.env.status.referenceTime ≤ c.env.transmit
  trip : 0 ≤ c.trip ∧ (c.trip : ℚ) < Source.maxDelay * second

/-- The timestamps of the server are not null, and the differences that the client takes
are of less than 68 years. -/
structure Near : Prop where
  receive : Ntp.fromTime c.receive ≠ 0
  transmit : Ntp.fromTime c.env.transmit ≠ 0
  client : -2 ^ 31 * second < c.t4 - c.t1 ∧ c.t4 - c.t1 < 2 ^ 31 * second
  server : -2 ^ 31 * second < c.env.transmit - c.receive ∧
    c.env.transmit - c.receive < 2 ^ 31 * second
  reference : c.env.transmit - c.env.status.referenceTime < 2 ^ 31 * second

/-- The fields of an answer with the time. -/
theorem time_synced (h : c.env.status.synced = true) :
    c.time =
      { leap := c.env.status.leap
        version := Ntp.version
        mode := .server
        stratum := c.env.status.stratum
        poll := c.params.poll
        precision := c.env.status.precision
        rootDelay := Ntp.shortFromSeconds c.env.status.rootDelay
        rootDispersion := Ntp.shortFromSeconds c.env.status.rootDispersion
        referenceID := c.env.status.refID
        referenceTime := Ntp.fromTime c.env.status.referenceTime
        originTime := c.nonce
        receiveTime := Ntp.fromTime c.receive
        transmitTime := Ntp.fromTime c.env.transmit } := by
  unfold time Policy.sent Policy.header
  rw [h]
  rfl

/-- A server to take the time from is sampled. -/
theorem eligible_sampled (h : c.Granted) (hc : c.Eligible) (hnear : c.Near) :
    c.outcome.2 = none := by
  have htime := c.time_synced hc.synced
  have husable : Source.Usable c.time := by
    rw [htime]
    refine ⟨?_, hc.stratum.2, hc.leap, hc.rootDistance⟩
    rintro (hzero : c.env.status.stratum = 0)
    have hone := hc.stratum.1
    rw [hzero] at hone
    exact absurd hone (by decide)
  have hmax : c.trip < 16 * second := by
    have hlt := hc.trip.2
    rw [Source.maxDelay] at hlt
    exact_mod_cast hlt
  rw [c.outcome_granted h, Source.assess_usable husable]
  refine ⟨?_, ?_, ?_⟩
  · rw [htime]
    exact ⟨hnear.transmit, hnear.receive⟩
  · exact Source.roundTrip_ok (by rw [htime]) (by rw [htime]) hnear.client
      hnear.server hc.trip.1 hmax
  · have hreference := hc.reference
    have hpast : Ntp.units c.env.status.referenceTime ≤ Ntp.units c.env.transmit := by
      unfold Ntp.units second
      omega
    have hlow : -2 ^ 31 * second < c.env.status.referenceTime - c.env.transmit := by
      have := hnear.reference
      unfold second at *
      omega
    have hhigh : c.env.status.referenceTime - c.env.transmit < 2 ^ 31 * second := by
      unfold second at *
      omega
    rw [htime, Source.maxFutureRefTime]
    show (Ntp.fromTime c.env.status.referenceTime).sub (Ntp.fromTime c.env.transmit) ≤ 1
    rw [Ntp.sub_fromTime hlow hhigh, div_le_iff₀ (by norm_num)]
    have hcast : ((Ntp.units c.env.status.referenceTime - Ntp.units c.env.transmit : ℤ) : ℚ) ≤
        0 := by
      exact_mod_cast Int.sub_nonpos_of_le hpast
    linarith

end Contact

/-- **The client understands the server.**  Every answer decodes, carries the origin of
the request and verifies if the request was signed.  A refusal of the limiter is seen as
the kiss RATE, authenticated if the request was signed.  The answer of a server that is
not synchronised is neither a sample nor a kiss, unless its reference id reads RATE.
That of a synchronised server with a sound status gives a sample, if no timestamp of it
is null and all the differences are of less than 68 years. -/
theorem interoperation {cr : Crypto} (c : Contact cr) :
    (c.Limited ∨ c.Granted) ∧ c.Understood ∧
    (c.Limited → c.outcome.2 = some (.kiss Ntp.kissRATE.text c.kiss c.params.key.isSome)) ∧
    (c.Granted → c.env.status.synced = false → c.env.status.referenceID ≠ Ntp.kissRATE →
      c.outcome.2 ≠ none ∧ ∀ code pkt auth, c.outcome.2 ≠ some (.kiss code pkt auth)) ∧
    (c.Granted → c.Eligible → c.Near → c.outcome.2 = none) := by
  refine ⟨?_, ?_, c.limited_kiss, ?_, c.eligible_sampled⟩
  · rcases c.answer with ⟨h, -⟩ | ⟨h, -⟩
    · exact .inl h
    · exact .inr h
  · rcases c.answer with ⟨-, hbytes⟩ | ⟨-, hbytes⟩
    · exact c.understood_sealed hbytes c.kiss_fixed
    · exact c.understood_sealed hbytes c.time_fixed
  · intro hgranted hsynced hrefID
    rw [c.unsynced_bogus hgranted hsynced hrefID]
    exact ⟨nofun, nofun⟩

/-! ### Exchanges with the lab server -/

/-- The times of an exchange: the reference time, the two of the server, those of the
client. -/
structure LabTimes where
  reference : ℤ
  receive : ℤ
  transmit : ℤ
  t1 : ℤ
  t4 : ℤ

/-- An exchange of a millisecond in 2023; one at the end of the era in 2036; one with a
server that was never told its reference time; and one of 68 years. -/
def labTimes : Fin 4 → LabTimes
  | 0 => ⟨Leap.ntpTime 3899999999, Leap.ntpTime 3900000000, Leap.ntpTime 3900000000,
      Leap.ntpTime 3900000000, Leap.ntpTime 3900000000 + 1000000⟩
  | 1 => ⟨Leap.ntpTime 4294967295, Leap.ntpTime 4294967296 - 1000, Leap.ntpTime 4294967296,
      Leap.ntpTime 4294967296 - 2000, Leap.ntpTime 4294967296⟩
  | 2 => ⟨0, Leap.ntpTime 3900000000, Leap.ntpTime 3900000000,
      Leap.ntpTime 3900000000, Leap.ntpTime 3900000000 + 1000000⟩
  | 3 => ⟨Leap.ntpTime 3900000000, Leap.ntpTime 3900000000, Leap.ntpTime 6047483647,
      Leap.ntpTime 3900000000, Leap.ntpTime 6047483648⟩

def labParams : ExchangeParams := ⟨⟨.v4 0xc0000202, 123⟩, some labKey, 6, -20, false⟩

def labTimeEnv (i : Fin 4) : Env :=
  { labEnv with
    status := { labEnv.status with referenceTime := (labTimes i).reference }
    wall := (labTimes i).transmit
    transmit := (labTimes i).transmit }

def labTimeResult (i : Fin 4) : Result :=
  labConfig.handler.handle labCrypto (labTimeEnv i) (labParams.request labCrypto.aes 5) labClient
    (labTimes i).receive 0

theorem labTimeResult_some (i : Fin 4) : (labTimeResult i).response.isSome = true := by
  revert i
  decide +kernel

def labContact (i : Fin 4) : Contact labCrypto where
  params := labParams
  nonce := 5
  handler := labConfig.handler
  env := labTimeEnv i
  client := labClient
  receive := (labTimes i).receive
  mono := 0
  t1 := (labTimes i).t1
  noise := []
  arrival := ⟨⟨.v4 0xc0000202, 123⟩, (labTimeResult i).response.getD [], (labTimes i).t4, none⟩
  rest := []
  ended := .deadline
  shared := by
    rintro key ⟨⟩
    rfl
  response := by
    obtain ⟨out, hout⟩ := Option.isSome_iff_exists.mp (labTimeResult_some i)
    show (labTimeResult i).response = some ((labTimeResult i).response.getD [])
    rw [hout, Option.getD_some]
  sender := rfl
  skipped := fun _ h => absurd h List.not_mem_nil

theorem labContact_granted (i : Fin 4) : (labContact i).Granted := by
  have hdrawn : ∀ i, (labTimeResult i).drawn.map (·.2) = some true := by decide +kernel
  obtain ⟨⟨bucket, -⟩, hbucket, rfl⟩ := Option.map_eq_some_iff.mp (hdrawn i)
  exact ⟨bucket, hbucket⟩

theorem labContact_eligible (i : Fin 4) : (labContact i).Eligible := by
  have hreference : ∀ i, (labTimes i).reference ≤ (labTimes i).transmit := by decide +kernel
  have htrip : ∀ i, 0 ≤ (labContact i).trip ∧ ((labContact i).trip : ℚ) <
      Source.maxDelay * second := by
    decide +kernel
  have hroot : (Ntp.shortFromSeconds 0).seconds / 2 + (Ntp.shortFromSeconds 0).seconds <
      Source.maxRootDistance := by
    decide +kernel
  have hstratum : (1 : UInt8) ≤ labEnv.status.stratum ∧ labEnv.status.stratum ≤ 15 := by decide
  have hleap : labEnv.status.leap ≠ .unsync := by decide
  exact ⟨rfl, hstratum, hleap, hroot, hreference i, htrip i⟩

theorem interoperation_labContact : (labContact 0).outcome.2 = none := by
  refine (interoperation (labContact 0)).2.2.2.2 (labContact_granted 0) (labContact_eligible 0) ?_
  constructor <;> decide +kernel

/-- A status and a round trip to take the time from are not enough: the reply may be sent
in the first quarter of a nanosecond of an era, the reference time may be too far back,
and so may the request. -/
theorem eligible_refused :
    ((labContact 1).Granted ∧ (labContact 1).Eligible ∧
      (labContact 1).outcome.2 = some (.bogus .zeroTimestamp)) ∧
    ((labContact 2).Granted ∧ (labContact 2).Eligible ∧
      (labContact 2).outcome.2 = some (.bogus .futureReference)) ∧
    ((labContact 3).Granted ∧ (labContact 3).Eligible ∧
      (labContact 3).outcome.2 = some (.bogus (.delay (-4294967295)))) := by
  refine ⟨⟨labContact_granted 1, labContact_eligible 1, ?_⟩,
    ⟨labContact_granted 2, labContact_eligible 2, ?_⟩,
    labContact_granted 3, labContact_eligible 3, ?_⟩
  · decide +kernel
  · decide +kernel
  · decide +kernel

end Carillon.Server
