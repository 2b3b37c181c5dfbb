/-
# The NTP server: one datagram

`Handle` takes a datagram through framing, the access lists, authentication, the
limiter and the leap distributor, and returns a response or nothing.  The source is one
function with many returns; here authentication and service, its two long parts, are
functions of their own.

The distributor, the clocks and the status belong to other goroutines: what they return
during a call is a parameter of the call, `Env`.
-/
import Carillon.Leap.Distributor
import Carillon.Ntp.Auth
import Carillon.Ntp.Timestamp
import Carillon.Server.RateLimit
import Carillon.Server.Stats

namespace Carillon.Server

open Ntp (Packet Key MAC RefID Decoded Cipher)
open Leap (Digest Distributor Message Object)
open Octets (put)

/-! ## Configuration -/

/-- `keyRule`. -/
structure KeyRule where
  pfx : Prefix
  keyID : BitVec 32
  deriving DecidableEq

/-- The part of a `Handler` that never changes.  `keys` is the key ring. -/
structure Policy where
  allow : List Prefix
  deny : List Prefix
  requireKey : List KeyRule
  keys : BitVec 32 → Option Key
  kod : Bool
  minPoll : Int8

/-- `Handler`. -/
structure Handler where
  policy : Policy
  limiter : RateLimiter
  stats : Stats
  publishedClients : ℤ

/-- `Config`.  The entries of the map `RequireKey` are in the order in which `range`
visits them. -/
structure Config where
  allow : List Prefix
  deny : List Prefix
  requireKey : List KeyRule
  keys : BitVec 32 → Option Key
  rateLimitPPS : ℚ
  rateBurst : ℚ
  maxClients : ℤ
  rateLimitV6Prefix : ℤ
  kod : Bool
  minPoll : Int8
  stats : Stats

/-- The errors that `NewHandler` joins. -/
inductive ConfigError where
  | allow
  | rateLimit (pps : ℚ)
  | rateBurst (burst : ℚ)
  | maxClients (n : ℤ)
  deriving DecidableEq

/-- `maxRateLimit`. -/
def maxRateLimit : ℚ := 1000000000

/-- `defaultMinPoll`. -/
def defaultMinPoll : Int8 := 6

/-- What `NewHandler` finds wrong. -/
def Config.errors (cfg : Config) : List ConfigError :=
  (if cfg.allow = [] then [.allow] else []) ++
    (if 0 < cfg.rateLimitPPS ∧
      cfg.rateLimitPPS ≤ maxRateLimit then [] else [.rateLimit cfg.rateLimitPPS]) ++
    (if 1 ≤ cfg.rateBurst ∧ cfg.rateBurst ≤ maxRateLimit then [] else [.rateBurst cfg.rateBurst]) ++
    (if cfg.maxClients < 0 then [.maxClients cfg.maxClients] else [])

/-- The rules of `RequireKey`, masked, the longest prefix first.  The sort of the source
is not stable: whatever it returns for one order of the entries, this one returns for
another. -/
def Config.rules (cfg : Config) : List KeyRule :=
  (cfg.requireKey.map fun r => ⟨r.pfx.masked, r.keyID⟩).insertionSort
    fun a b => b.pfx.bits ≤ a.pfx.bits

/-- The handler of a configuration, with the defaults filled in. -/
def Config.handler (cfg : Config) : Handler where
  policy :=
    { allow := cfg.allow.map Prefix.masked
      deny := cfg.deny.map Prefix.masked
      requireKey := cfg.rules
      keys := cfg.keys
      kod := cfg.kod
      minPoll := if cfg.minPoll = 0 then defaultMinPoll else cfg.minPoll }
  limiter := newRateLimiter cfg.rateLimitPPS cfg.rateBurst cfg.maxClients cfg.rateLimitV6Prefix
  stats := cfg.stats
  publishedClients := 0

/-- `NewHandler`. -/
def newHandler (cfg : Config) : Except (List ConfigError) Handler :=
  if cfg.errors ≠ [] then .error cfg.errors else .ok cfg.handler

theorem newHandler_ok {cfg : Config} {h : Handler} (hcfg : newHandler cfg = .ok h) :
    cfg.errors = [] ∧ h = cfg.handler := by
  unfold newHandler at hcfg
  split_ifs at hcfg with herrors
  exact ⟨not_not.mp herrors, (Except.ok.inj hcfg).symm⟩

/-! ## The pieces of `Handle` -/

/-- `SystemStatus`. -/
structure SystemStatus where
  synced : Bool
  leap : Ntp.Leap
  stratum : UInt8
  precision : Int8
  rootDelay : ℚ
  rootDispersion : ℚ
  referenceID : RefID
  referenceTime : ℤ

/-- What the rest of the daemon returns during one call: the status, the clock when a
leap request is answered and when the reply is completed, and the distributor with its
current object and with the writes of other listeners. -/
structure Env where
  status : SystemStatus
  wall : ℤ
  transmit : ℤ
  leap : Option Distributor
  current : Option Object
  others : Leap.Contention

/-- The cryptographic functions. -/
structure Crypto where
  aes : Cipher
  sha256 : Bytes → Digest

/-- What a call leaves and returns.  `drawn` is an observation: the service bucket that
the call drew on, and whether the limiter admitted it. -/
structure Result where
  handler : Handler
  leap : Option Distributor
  drawn : Option (BucketKey × Bool)
  response : Option Bytes

/-- `isClientRequest`. -/
def isClientRequest (p : Packet) : Bool :=
  decide (p.mode = .client) || (decide (p.mode = .reserved) && decide (p.version = 1))

/-- `matches`. -/
def matchesAny (prefixes : List Prefix) (addr : Addr) : Bool :=
  prefixes.any (·.contains addr)

/-- `permitted`. -/
def Policy.permitted (p : Policy) (addr : Addr) : Bool :=
  if matchesAny p.deny addr then false else matchesAny p.allow addr

/-- `requiredKey`: the key of the first rule that matches, or 0. -/
def Policy.requiredKey (p : Policy) (addr : Addr) : BitVec 32 :=
  (p.requireKey.find? (·.pfx.contains addr)).elim 0 (·.keyID)

/-- `verify`; `none` is a trailer that cannot be authenticated. -/
def Policy.verify (aes : Cipher) (p : Policy) (request : Bytes) (d : Decoded) :
    Option (Option Key) :=
  match d.mac with
  | none => some none
  | some mac =>
    if mac.isCryptoNAK then some none
    else
      match p.keys mac.keyID with
      | none => none
      | some key => if key.verify aes (request.take d.macOffset) mac then some (some key) else none

/-- `keyIDOf`. -/
def keyIDOf (key : Option Key) : BitVec 32 :=
  key.elim 0 (·.id)

/-- The reference id of an answer that is not a kiss. -/
def SystemStatus.refID (st : SystemStatus) : RefID :=
  if st.synced = false ∧ st.referenceID = default then Ntp.kissINIT else st.referenceID

/-- The header that `reply` builds, before the transmit time is known. -/
def Policy.header (p : Policy) (req : Packet) (receive : ℤ) (st : SystemStatus) (refID : RefID)
    (special : Bool) : Packet :=
  let answer : Packet :=
    { leap := st.leap
      version := req.version
      mode := .server
      stratum := st.stratum
      poll := req.poll
      precision := st.precision
      rootDelay := Ntp.shortFromSeconds st.rootDelay
      rootDispersion := Ntp.shortFromSeconds st.rootDispersion
      referenceID := refID
      referenceTime := Ntp.fromTime st.referenceTime
      originTime := req.transmitTime
      receiveTime := Ntp.fromTime receive
      transmitTime := 0 }
  if special then
    let answer := { answer with leap := .unsync, rootDelay := 0, referenceTime := 0 }
    if refID = Ntp.kissRATE then
      { answer with stratum := 0, poll := p.minPoll, rootDispersion := 0 }
    else { answer with stratum := 16, rootDispersion := Ntp.shortFromSeconds 16 }
  else answer

/-- `binary.BigEndian.PutUint64(out[40:48], t)`. -/
def putTransmit (out : Bytes) (t : Ntp.Time) : Bytes :=
  out.take 40 ++ put 8 t ++ out.drop 48

/-- Sign the packet, if there is a key. -/
def sign (aes : Cipher) (key : Option Key) (out : Bytes) : Bytes :=
  key.elim out fun k => k.append aes out

/-- `reply`. -/
def Policy.reply (aes : Cipher) (p : Policy) (req : Packet) (receive : ℤ) (st : SystemStatus)
    (refID : RefID) (key : Option Key) (special : Bool) (extension : Option Message)
    (transmit : ℤ) : Option Bytes :=
  let out := (p.header req receive st refID special).marshal
  let out := match extension with
    | none => some out
    | some m => (m.appendTo out).toOption
  out.map fun out => sign aes key (putTransmit out (Ntp.fromTime transmit))

/-- `cryptoNAK`. -/
def Policy.cryptoNAK (aes : Cipher) (p : Policy) (env : Env) (request : Bytes) (d : Decoded)
    (receive : ℤ) : Option Bytes :=
  match d.mac with
  | none => none
  | some mac =>
    if mac.isCryptoNAK = true ∨ request.length < Ntp.headerSize + Ntp.cryptoNAKSize then none
    else
      (p.reply aes d.packet receive env.status env.status.refID none (!env.status.synced) none
        env.transmit).map (· ++ put 4 (0 : BitVec 32))

/-! ## `Handle` -/

/-- Write the counters of the family of the client. -/
def Handler.count (h : Handler) (addr : Addr) (f : Counters → Counters) : Handler :=
  { h with stats := h.stats.update addr f }

/-- `publishClients`. -/
def Handler.publishClients (h : Handler) (addr : Addr) : Handler :=
  { h with
    stats := h.stats.update addr (·.addClients (h.limiter.size - h.publishedClients))
    publishedClients := h.limiter.size }

/-- Ask the limiter. -/
def Handler.draw (h : Handler) (k : BucketKey) (mono : ℤ) : Handler :=
  { h with limiter := (h.limiter.allow k mono).1 }

/-- The end of a call without a response. -/
def Handler.drop (h : Handler) (env : Env) : Result :=
  ⟨h, env.leap, none, none⟩

/-- The authentication part of `Handle`: the end of the call, or the key that the reply
is to be signed with. -/
def Handler.authenticate (aes : Cipher) (h : Handler) (env : Env) (request : Bytes) (d : Decoded)
    (addr : Addr) (receive mono : ℤ) : Result ⊕ (Handler × Option Key) :=
  let required := h.policy.requiredKey addr
  let crypto := h.limiter.cryptoKey addr
  if required = 0 ∧ d.mac = none then .inr (h, none)
  else if required = 0 ∧ (h.limiter.allow crypto mono).2.1 = false then
    .inl ((((h.draw crypto mono).count addr (·.add .rateLimited)).publishClients addr).drop env)
  else
    -- the crypto budget meters the verification of clients that need no key
    let h := if required = 0 then h.draw crypto mono else h
    match h.policy.verify aes request d with
    | none =>
      let h := h.count addr (·.add .badAuth)
      let nak := h.policy.cryptoNAK aes env request d receive
      -- and the failures of those that need one
      if required = 0 then .inl ⟨h, env.leap, none, nak⟩
      else if (h.limiter.allow crypto mono).2.1 = false then .inl ((h.draw crypto mono).drop env)
      else .inl ⟨h.draw crypto mono, env.leap, none, nak⟩
    | some key =>
      if required ≠ 0 ∧ key.map (·.id) ≠ some required then
        .inl ((h.count addr (·.add .badAuth)).drop env)
      else .inr (h, key)

/-- The leap request of a datagram, answered: the distributor afterwards, and the reply
or the counter of the failure. -/
def extension (sha256 : Bytes → Digest) (env : Env) (request : Bytes)
    (d : Decoded) (key : Option Key)
    (mono : ℤ) : Option Distributor × Except Outcome (Option Message) :=
  match env.leap, key with
  | some leap, some key =>
    if d.packet.version = 4 ∧ d.packet.mode = .client ∧ leap.authorized key.id = true then
      match Leap.decodeFields (request.extract Ntp.headerSize d.macOffset) with
      | .error .unsupported => (env.leap, .ok none)
      | .error (.rejected _) => (env.leap, .error .malformed)
      | .ok none => (env.leap, .ok none)
      | .ok (some m) =>
        let answer := leap.respond sha256 m key.id env.wall mono env.current env.others
        match answer.2 with
        | .error e =>
          (some answer.1, .error (if e.reason = some .rate then .rateLimited else .malformed))
        | .ok r => (some answer.1, .ok (some r))
    else (env.leap, .ok none)
  | _, _ => (env.leap, .ok none)

/-- The service part of `Handle`, with the verified key of the client. -/
def Handler.serve (cr : Crypto) (h : Handler) (env : Env) (request : Bytes) (d : Decoded)
    (addr : Addr) (key : Option Key) (receive mono : ℤ) : Result :=
  let bucket := h.limiter.key addr (keyIDOf key)
  let answer := (h.limiter.allow bucket mono).2
  let h := (h.draw bucket mono).publishClients addr
  if answer.1 = false then
    let h := h.count addr (·.add .rateLimited)
    if h.policy.kod = false ∨ answer.2 = false then ⟨h, env.leap, some (bucket, false), none⟩
    else
      ⟨h.count addr (·.addKod), env.leap, some (bucket, false),
        h.policy.reply cr.aes d.packet receive env.status Ntp.kissRATE key true none env.transmit⟩
  else
    let answered := extension cr.sha256 env request d key mono
    match answered.2 with
    | .error o => ⟨h.count addr (·.add o), answered.1, some (bucket, true), none⟩
    | .ok message =>
      let h := h.count addr (·.accept d.packet.version receive)
      match h.policy.reply cr.aes d.packet receive env.status env.status.refID key
        (!env.status.synced)
          message env.transmit with
      | none => ⟨h, answered.1, some (bucket, true), none⟩
      | some response =>
        ⟨h.count addr (·.serve env.status.synced receive), answered.1, some (bucket, true),
          some response⟩

/-- The counter of a datagram that `Decode` refuses. -/
def undecoded : Ntp.DecodeError → Outcome
  | .version _ => .badVersion
  | .short | .trailer => .malformed

/-- `Handle`. -/
def Handler.handle (cr : Crypto) (h : Handler) (env : Env) (request : Bytes) (client : AddrPort)
    (receive mono : ℤ) : Result :=
  let addr := client.addr.unmap
  match Ntp.decode request with
  | .error e => (h.count addr (·.add (undecoded e))).drop env
  | .ok d =>
    if isClientRequest d.packet = false then
      (h.count addr fun c =>
        { c.add .nonClient with
          modes := Function.update c.modes d.packet.mode (c.modes d.packet.mode + 1) }).drop env
    else if martianSource client = true then (h.count addr (·.add .martian)).drop env
    else if h.policy.permitted addr = false then (h.count addr (·.add .denied)).drop env
    else
      match h.authenticate cr.aes env request d addr receive mono with
      | .inl r => r
      | .inr (h, key) => h.serve cr env request d addr key receive mono

/-! ## Requests -/

/-- What a client signs with a key of the server verifies. -/
theorem verify_signed {aes : Cipher} {p : Policy} {key : Key} (hkey : p.keys key.id = some key)
    (body : Bytes) (pkt : Packet) :
    p.verify aes (key.append aes body)
      ⟨pkt, some ⟨key.id, (Ntp.cmac aes key.secret body).toList⟩, body.length⟩ =
        some (some key) := by
  have hbody : (key.append aes body).take body.length = body := List.take_left
  unfold Policy.verify
  dsimp only
  rw [if_neg (by simp [Ntp.MAC.isCryptoNAK]), hkey]
  dsimp only
  rw [hbody, Ntp.verify_trailer, if_pos rfl]

/-! ## Replies -/

/-- The transmit time is the last field of the header. -/
theorem putTransmit_marshal (p : Packet) (rest : Bytes) (t : Ntp.Time) :
    putTransmit (p.marshal ++ rest) t = { p with transmitTime := t }.marshal ++ rest := by
  have hsplit : ∀ q : Packet, q.marshal = (q.fields.take 10).flatten ++ put 8 q.transmitTime := by
    intro q
    simp [Packet.marshal, Packet.fields]
  have hlen : (p.fields.take 10).flatten.length = 40 := by
    simp [Packet.fields]
  have htake : (p.marshal ++ rest).take 40 = (p.fields.take 10).flatten := by
    rw [hsplit, List.append_assoc, List.take_left' hlen]
  have hdrop : (p.marshal ++ rest).drop 48 = rest :=
    List.drop_left' (Ntp.marshal_length p)
  rw [putTransmit, htake, hdrop, hsplit { p with transmitTime := t }]
  rfl

/-- The bytes of an extension field, or none. -/
def fieldOf (extension : Option Message) : Bytes :=
  extension.elim [] Message.field

/-- The header of a reply that is sent at `transmit`. -/
def Policy.sent (p : Policy) (req : Packet) (receive : ℤ) (st : SystemStatus) (refID : RefID)
    (special : Bool) (transmit : ℤ) : Packet :=
  { p.header req receive st refID special with transmitTime := Ntp.fromTime transmit }

section Reply

variable {aes : Cipher} {p : Policy} {req : Packet} {receive : ℤ} {st : SystemStatus}
  {refID : RefID} {key : Option Key} {special : Bool} {extension : Option Message} {transmit : ℤ}

/-- **A reply with a valid extension is written.** -/
theorem reply_eq (hvalid : ∀ m ∈ extension, m.Valid) :
    p.reply aes req receive st refID key special extension transmit =
      some (sign aes key ((p.sent req receive st refID special transmit).marshal ++
        fieldOf extension)) := by
  unfold Policy.reply
  cases extension with
  | none =>
    have h := putTransmit_marshal (p.header req receive st refID special) [] (Ntp.fromTime transmit)
    rw [List.append_nil, List.append_nil] at h
    simp only [Option.map_some, h, fieldOf, Option.elim_none, List.append_nil]
    rfl
  | some m =>
    have hm : m.validate = .ok () := m.validate_ok_iff.mpr (hvalid m rfl)
    simp only [Message.appendTo, hm, Except.toOption, Option.map_some, putTransmit_marshal]
    rfl

/-- And only such a reply. -/
theorem valid_of_reply {out : Bytes}
    (h : p.reply aes req receive st refID key special extension transmit = some out) :
    ∀ m ∈ extension, m.Valid := by
  rintro m rfl
  rcases m.validate_cases with hm | hm
  · exact m.validate_ok_iff.mp hm
  · simp [Policy.reply, Message.appendTo, hm, Leap.badMessage, Leap.reject, Except.toOption] at h

/-- What is written. -/
theorem eq_of_reply {out : Bytes}
    (h : p.reply aes req receive st refID key special extension transmit = some out) :
    out = sign aes key
      ((p.sent req receive st refID special transmit).marshal ++ fieldOf extension) := by
  rw [reply_eq (valid_of_reply h)] at h
  exact (Option.some.inj h).symm

end Reply

/-- What does not depend on the kind of the reply. -/
theorem sent_fixed (p : Policy) (req : Packet) (receive : ℤ) (st : SystemStatus) (refID : RefID)
    (special : Bool) (transmit : ℤ) :
    (p.sent req receive st refID special transmit).version = req.version ∧
      (p.sent req receive st refID special transmit).mode = .server ∧
      (p.sent req receive st refID special transmit).originTime = req.transmitTime ∧
      (p.sent req receive st refID special transmit).receiveTime = Ntp.fromTime receive ∧
      (p.sent req receive st refID special transmit).transmitTime = Ntp.fromTime transmit ∧
      (p.sent req receive st refID special transmit).referenceID = refID := by
  unfold Policy.sent Policy.header
  dsimp only
  split_ifs <;> exact ⟨rfl, rfl, rfl, rfl, rfl, rfl⟩

end Carillon.Server
