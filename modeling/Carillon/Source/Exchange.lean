/-
# One exchange with a server

`exchange` in `source/ntp.go`: a request is sent on a connected socket, and the datagrams
that arrive are read until one of them carries the transmit time of the request back.
That one decides the exchange (`ExchangeParams.judge`): it is a sample, a kiss, or a
reply that cannot be used.

The socket is given by what it does: the error that ends the exchange before it is sent,
the datagrams in the order of their arrival, and the error of the read after the last of
them.  The timestamps of the kernel come with the datagrams.
-/
import Carillon.Ntp.Auth
import Carillon.Ntp.Timestamp
import Carillon.Server.Address
import Carillon.Source.Ntp

namespace Carillon.Source

open Carillon.Ntp (Packet MAC Key Cipher Decoded Mode)
open Server (AddrPort)

/-! ## The request -/

/-- `exchangeParams`, with the precision of the clock. -/
structure ExchangeParams where
  addr : AddrPort
  key : Option Key
  poll : Int8
  precision : Int8
  kernelTS : Bool

/-- The header of the request; the transmit time is a nonce. -/
def ExchangeParams.packet (p : ExchangeParams) (nonce : Ntp.Time) : Packet where
  leap := .none
  version := Ntp.version
  mode := .client
  stratum := 0
  poll := p.poll
  precision := p.precision
  rootDelay := 0
  rootDispersion := 0
  referenceID := default
  referenceTime := 0
  originTime := 0
  receiveTime := 0
  transmitTime := nonce

/-- The datagram of the request, signed if there is a key. -/
def ExchangeParams.request (aes : Cipher) (p : ExchangeParams) (nonce : Ntp.Time) : List UInt8 :=
  let buf := (p.packet nonce).marshal
  p.key.elim buf fun key => key.append aes buf

/-! ## What comes back -/

/-- `maxDelay`, in seconds. -/
def maxDelay : ℚ := 16

/-- `maxRootDistance`. -/
def maxRootDistance : ℚ := 3 / 2

/-- `maxFutureRefTime`. -/
def maxFutureRefTime : ℚ := 1

/-- `bogusError`: why a reply that was addressed to us is unusable. -/
inductive Bogus where
  | mode (m : Mode)
  /-- Stratum 0 without a kiss code. -/
  | noKissCode
  | stratum (s : UInt8)
  /-- Server unsynchronized. -/
  | unsynchronized
  /-- Zero timestamp. -/
  | zeroTimestamp
  | delay (seconds : ℚ)
  | rootDistance (seconds : ℚ)
  /-- Reference time in the future. -/
  | futureReference
  deriving DecidableEq

/-- The errors of `exchange`. -/
inductive ExchangeError where
  /-- The context has been cancelled. -/
  | cancelled
  /-- `errTimeout`. -/
  | timeout
  /-- `errBadAuth`. -/
  | badAuth
  /-- `errUnreachable`. -/
  | unreachable
  /-- `errNetworkUnreachable`. -/
  | networkUnreachable
  /-- Another error of the socket. -/
  | socket
  | bogus (reason : Bogus)
  /-- `kissError`. -/
  | kiss (code : List UInt8) (packet : Packet) (authenticated : Bool)
  deriving DecidableEq

/-- An error of the socket, by its kind. -/
inductive SocketError where
  | cancelled
  | deadline
  | refused
  | noRoute
  | other

def SocketError.error : SocketError → ExchangeError
  | .cancelled => .cancelled
  | .deadline => .timeout
  | .refused => .unreachable
  | .noRoute => .networkUnreachable
  | .other => .socket

/-- A datagram, the clock when it was read, and the timestamp of the kernel. -/
structure Arrival where
  sender : AddrPort
  bytes : List UInt8
  now : ℤ
  kernel : Option ℤ

/-- What the socket does during one exchange. -/
structure Socket where
  unsent : Option SocketError
  t1 : ℤ
  arrivals : List Arrival
  ended : SocketError

/-- `exchangeResult`.  There is no packet until a datagram answers the request. -/
structure ExchangeResult where
  sent : Bool
  packet : Option Packet
  mac : Option MAC
  authenticated : Bool
  t1 : ℤ
  t4 : ℤ
  kernelTS : Bool
  offset : ℚ
  delay : ℚ
  deriving DecidableEq

/-- The zero value. -/
def ExchangeResult.zero : ExchangeResult := ⟨false, none, none, false, 0, 0, false, 0, 0⟩

/-- The time of arrival: that of the kernel, if it is wanted and there is one. -/
def ExchangeParams.t4 (p : ExchangeParams) (a : Arrival) : ℤ :=
  if p.kernelTS then a.kernel.getD a.now else a.now

/-- `sameEndpoint`. -/
def sameEndpoint (a b : AddrPort) : Bool :=
  decide (a.port = b.port) && decide (a.addr.unmap = b.addr.unmap)

/-! ## The checks -/

/-- The round trip as computed from the four timestamps. -/
def roundTrip (t1 t4 : ℤ) (pkt : Packet) : ℚ :=
  (Ntp.fromTime t4).sub (Ntp.fromTime t1) - pkt.transmitTime.sub pkt.receiveTime

/-- By how much the round trip may be negative. -/
def ExchangeParams.tolerance (p : ExchangeParams) (pkt : Packet) : ℚ :=
  log2Seconds p.precision.toInt + log2Seconds (clampPrecision pkt.precision.toInt)

/-- The root distance that the server announces. -/
def rootDistance (pkt : Packet) : ℚ :=
  Ntp.Short.seconds pkt.rootDelay / 2 + Ntp.Short.seconds pkt.rootDispersion

/-- The end of `exchange`, on the packet of an authentic reply. -/
def ExchangeParams.assess (p : ExchangeParams) (res : ExchangeResult) (pkt : Packet) :
    ExchangeResult × Option ExchangeError :=
  let bogus (reason : Bogus) := (res, some (ExchangeError.bogus reason))
  if pkt.isKiss then
    if pkt.kissCode = [] then bogus .noKissCode
    else (res, some (.kiss pkt.kissCode pkt res.authenticated))
  else if 15 < pkt.stratum then bogus (.stratum pkt.stratum)
  else if pkt.leap = .unsync then bogus .unsynchronized
  else if pkt.transmitTime = 0 ∨ pkt.receiveTime = 0 then bogus .zeroTimestamp
  else
    let delay := roundTrip res.t1 res.t4 pkt
    if delay < -p.tolerance pkt ∨ maxDelay ≤ delay then bogus (.delay delay)
    else if maxRootDistance ≤ rootDistance pkt then bogus (.rootDistance (rootDistance pkt))
    else if maxFutureRefTime < pkt.referenceTime.sub pkt.transmitTime then bogus .futureReference
    else
      ({ res with
          offset := (pkt.receiveTime.sub (Ntp.fromTime res.t1) +
            pkt.transmitTime.sub (Ntp.fromTime res.t4)) / 2
          delay := if delay < 0 then 0 else delay },
        none)

/-- The trailer verifies under the key, if there is one. -/
def ExchangeParams.authentic (aes : Cipher) (p : ExchangeParams) (bytes : List UInt8)
    (d : Decoded) : Bool :=
  p.key.all fun key => d.mac.any fun mac =>
    !mac.isCryptoNAK && key.verify aes (bytes.take d.macOffset) mac

/-- What becomes of a datagram that answers the request. -/
def ExchangeParams.judge (aes : Cipher) (p : ExchangeParams) (res : ExchangeResult) (a : Arrival)
    (d : Decoded) : ExchangeResult × Option ExchangeError :=
  let res :=
    { res with
      packet := some d.packet
      mac := d.mac
      t4 := p.t4 a
      kernelTS := p.kernelTS && a.kernel.isSome }
  if d.packet.mode ≠ .server then (res, some (.bogus (.mode d.packet.mode)))
  else if p.authentic aes a.bytes d = false then (res, some .badAuth)
  else p.assess { res with authenticated := p.key.isSome } d.packet

/-- The answer to the request among the datagrams: one from the server that decodes and
has the nonce as its origin.  A datagram is cut at the size of the buffer. -/
def ExchangeParams.answer? (p : ExchangeParams) (nonce : Ntp.Time) (a : Arrival) : Option Decoded :=
  if sameEndpoint a.sender p.addr then
    (Ntp.decode (a.bytes.take Ntp.maxPacketSize)).toOption.filter (·.packet.originTime = nonce)
  else none

/-- The loop of `exchange`. -/
def ExchangeParams.read (aes : Cipher) (p : ExchangeParams) (nonce : Ntp.Time)
    (res : ExchangeResult)
    (ended : SocketError) : List Arrival → ExchangeResult × Option ExchangeError
  | [] => (res, some ended.error)
  | a :: rest =>
    match p.answer? nonce a with
    | none => p.read aes nonce res ended rest
    | some d => p.judge aes res { a with bytes := a.bytes.take Ntp.maxPacketSize } d

/-- `exchange`. -/
def ExchangeParams.exchange (aes : Cipher) (p : ExchangeParams) (nonce : Ntp.Time) (s : Socket) :
    ExchangeResult × Option ExchangeError :=
  match s.unsent with
  | some e => (.zero, some e.error)
  | none => p.read aes nonce { ExchangeResult.zero with sent := true, t1 := s.t1 } s.ended
    s.arrivals

/-! ## What answers the request decides the exchange -/

section Exchange

variable {aes : Cipher} {p : ExchangeParams} {nonce : Ntp.Time}

/-- Other datagrams are skipped. -/
theorem read_skip {res : ExchangeResult} {ended : SocketError} {noise : List Arrival}
    (hnoise : ∀ a ∈ noise, p.answer? nonce a = none) (rest : List Arrival) :
    p.read aes nonce res ended (noise ++ rest) = p.read aes nonce res ended rest := by
  induction noise with
  | nil => rfl
  | cons a noise ih =>
    have ha := hnoise a List.mem_cons_self
    rw [List.cons_append, ExchangeParams.read, ha]
    exact ih fun b hb => hnoise b (List.mem_cons_of_mem a hb)

/-- A packet with the trailer that the key of the client makes, or without one. -/
def ExchangeParams.sealed (aes : Cipher) (p : ExchangeParams) (pkt : Packet) : List UInt8 :=
  p.key.elim pkt.marshal fun key => key.append aes pkt.marshal

theorem sealed_length (pkt : Packet) : (p.sealed aes pkt).length ≤ 68 := by
  unfold ExchangeParams.sealed
  cases p.key with
  | none =>
    show pkt.marshal.length ≤ 68
    rw [Ntp.marshal_length]
    omega
  | some key =>
    show (key.append aes pkt.marshal).length ≤ 68
    rw [Ntp.append_length, Ntp.marshal_length]

/-- Its trailer. -/
def ExchangeParams.seal (aes : Cipher) (p : ExchangeParams) (pkt : Packet) : Option MAC :=
  p.key.map fun key => ⟨key.id, (Ntp.cmac aes key.secret pkt.marshal).toList⟩

theorem decode_sealed {pkt : Packet} (hversion : pkt.version = Ntp.version) :
    Ntp.decode (p.sealed aes pkt) = .ok ⟨pkt, p.seal aes pkt, 48⟩ := by
  have hsupported : Ntp.Supported pkt.version := by
    rw [hversion]
    decide
  unfold ExchangeParams.sealed ExchangeParams.seal
  cases p.key with
  | none =>
    have h := Ntp.decode_framed pkt hsupported [] nofun [] (.inr (.inr ⟨rfl, nofun⟩))
    simpa [Ntp.macOf] using h
  | some key =>
    have h := @Ntp.decode_append aes key pkt hsupported [] nofun
    simpa using h

theorem sealed_take (pkt : Packet) : (p.sealed aes pkt).take 48 = pkt.marshal := by
  unfold ExchangeParams.sealed
  cases p.key with
  | none =>
    show pkt.marshal.take 48 = pkt.marshal
    exact List.take_of_length_le (by rw [Ntp.marshal_length])
  | some key => exact List.take_left' (Ntp.marshal_length pkt)

/-- The trailer verifies under the key. -/
theorem authentic_sealed (pkt : Packet) :
    p.authentic aes (p.sealed aes pkt) ⟨pkt, p.seal aes pkt, 48⟩ = true := by
  unfold ExchangeParams.authentic
  dsimp only
  rw [sealed_take]
  unfold ExchangeParams.seal
  cases p.key with
  | none => rfl
  | some key =>
    have hnak : MAC.isCryptoNAK ⟨key.id, (Ntp.cmac aes key.secret pkt.marshal).toList⟩ = false := by
      simp [MAC.isCryptoNAK]
    simp [Ntp.verify_trailer, hnak]

/-- What the exchange has recorded when it assesses the packet of a sealed reply. -/
def ExchangeParams.recorded (aes : Cipher) (p : ExchangeParams) (t1 : ℤ)
    (a : Arrival) (pkt : Packet) : ExchangeResult where
  sent := true
  packet := some pkt
  mac := p.seal aes pkt
  authenticated := p.key.isSome
  t1 := t1
  t4 := p.t4 a
  kernelTS := p.kernelTS && a.kernel.isSome
  offset := 0
  delay := 0

/-- **A sealed reply to the request is assessed**, whatever else arrives before it. -/
theorem exchange_sealed {pkt : Packet} {noise rest : List Arrival} {a : Arrival}
    (hnoise : ∀ b ∈ noise, p.answer? nonce b = none)
    (hsender : sameEndpoint a.sender p.addr = true) (hbytes : a.bytes = p.sealed aes pkt)
    (hversion : pkt.version = Ntp.version) (hmode : pkt.mode = .server)
    (horigin : pkt.originTime = nonce) (t1 : ℤ) (ended : SocketError) :
    p.exchange aes nonce ⟨none, t1, noise ++ a :: rest, ended⟩ =
      p.assess (p.recorded aes t1 a pkt) pkt := by
  have hwhole : a.bytes.take Ntp.maxPacketSize = p.sealed aes pkt := by
    rw [hbytes]
    exact List.take_of_length_le ((sealed_length pkt).trans (by decide))
  have hanswer : p.answer? nonce a = some ⟨pkt, p.seal aes pkt, 48⟩ := by
    unfold ExchangeParams.answer?
    rw [if_pos hsender, hwhole, decode_sealed hversion]
    exact Option.filter_eq_some_iff.mpr ⟨rfl, decide_eq_true horigin⟩
  unfold ExchangeParams.exchange
  dsimp only
  rw [read_skip hnoise, ExchangeParams.read, hanswer]
  unfold ExchangeParams.judge
  dsimp only
  rw [if_neg (not_not.mpr hmode), hwhole, authentic_sealed, if_neg (by decide)]
  rfl

end Exchange

/-! ## Assessments -/

section Assess

variable {p : ExchangeParams} {res : ExchangeResult} {pkt : Packet}

theorem assess_kiss (hstratum : pkt.stratum = 0) (hcode : pkt.kissCode ≠ []) :
    p.assess res pkt = (res, some (.kiss pkt.kissCode pkt res.authenticated)) := by
  have hkiss : pkt.isKiss = true := decide_eq_true hstratum
  unfold ExchangeParams.assess
  dsimp only
  rw [if_pos hkiss, if_neg hcode]

/-- The packet passes the checks that do not depend on the timestamps. -/
structure Usable (pkt : Packet) : Prop where
  stratum_ne : pkt.stratum ≠ 0
  stratum_le : pkt.stratum ≤ 15
  leap : pkt.leap ≠ .unsync
  rootDistance : rootDistance pkt < maxRootDistance

/-- What the checks of a usable packet are. -/
theorem assess_usable (h : Usable pkt) :
    (p.assess res pkt).2 = none ↔
      (pkt.transmitTime ≠ 0 ∧ pkt.receiveTime ≠ 0) ∧
        (-p.tolerance pkt ≤ roundTrip res.t1 res.t4 pkt ∧ roundTrip res.t1 res.t4 pkt < maxDelay) ∧
        pkt.referenceTime.sub pkt.transmitTime ≤ maxFutureRefTime := by
  have hkiss : ¬pkt.isKiss = true := by
    simpa [Packet.isKiss] using h.stratum_ne
  have hstratum : ¬15 < pkt.stratum := UInt8.not_lt.mpr h.stratum_le
  unfold ExchangeParams.assess
  dsimp only
  rw [if_neg hkiss, if_neg hstratum, if_neg h.leap]
  by_cases hzero : pkt.transmitTime = 0 ∨ pkt.receiveTime = 0
  · rw [if_pos hzero]
    refine iff_of_false nofun ?_
    rintro ⟨hne, -⟩
    exact not_or.mpr hne hzero
  rw [if_neg hzero]
  by_cases hdelay : roundTrip res.t1 res.t4 pkt < -p.tolerance pkt ∨ maxDelay ≤
    roundTrip res.t1 res.t4 pkt
  · rw [if_pos hdelay]
    refine iff_of_false nofun ?_
    rintro ⟨-, ⟨hlow, hhigh⟩, -⟩
    exact hdelay.elim (not_lt.mpr hlow) (not_le.mpr hhigh)
  rw [if_neg hdelay, if_neg (not_le.mpr h.rootDistance)]
  rw [not_or, not_lt, not_le] at hdelay
  by_cases hfuture : maxFutureRefTime < pkt.referenceTime.sub pkt.transmitTime
  · rw [if_pos hfuture]
    refine iff_of_false nofun ?_
    rintro ⟨-, -, hpast⟩
    exact not_lt.mpr hpast hfuture
  · rw [if_neg hfuture]
    exact iff_of_true rfl ⟨not_or.mp hzero, hdelay, not_lt.mp hfuture⟩

/-! ## The round trip -/

theorem tolerance_ge (p : ExchangeParams) (pkt : Packet) : 1 / 2 ^ 30 ≤ p.tolerance pkt := by
  have hclock : (0 : ℚ) ≤ log2Seconds p.precision.toInt := zpow_nonneg (by norm_num) _
  have hclamp : -30 ≤ clampPrecision pkt.precision.toInt := by
    unfold clampPrecision
    split_ifs <;> omega
  have hserver : (1 : ℚ) / 2 ^ 30 ≤ log2Seconds (clampPrecision pkt.precision.toInt) :=
    calc (1 : ℚ) / 2 ^ 30 = 2 ^ (-30 : ℤ) := by norm_num
      _ ≤ 2 ^ clampPrecision pkt.precision.toInt := zpow_le_zpow_right₀ (by norm_num) hclamp
  unfold ExchangeParams.tolerance
  linarith

/-- Within 68 years the computed round trip is the true one, up to the rounding of the
four timestamps. -/
theorem roundTrip_eq {t1 t2 t3 t4 : ℤ} (hreceive : pkt.receiveTime = Ntp.fromTime t2)
    (htransmit : pkt.transmitTime = Ntp.fromTime t3)
    (hclient : -2 ^ 31 * second < t4 - t1 ∧ t4 - t1 < 2 ^ 31 * second)
    (hserver : -2 ^ 31 * second < t3 - t2 ∧ t3 - t2 < 2 ^ 31 * second) :
    roundTrip t1 t4 pkt =
      (Ntp.units t4 - Ntp.units t1 - (Ntp.units t3 - Ntp.units t2) : ℤ) / 2 ^ 32 := by
  unfold roundTrip
  rw [hreceive, htransmit, Ntp.sub_fromTime hclient.1 hclient.2,
    Ntp.sub_fromTime hserver.1 hserver.2]
  push_cast
  ring

/-- A true round trip within the limit passes the check of the computed one: rounding
takes less than the tolerance, and adds less than a nanosecond. -/
theorem roundTrip_ok {t1 t2 t3 t4 : ℤ} (hreceive : pkt.receiveTime = Ntp.fromTime t2)
    (htransmit : pkt.transmitTime = Ntp.fromTime t3)
    (hclient : -2 ^ 31 * second < t4 - t1 ∧ t4 - t1 < 2 ^ 31 * second)
    (hserver : -2 ^ 31 * second < t3 - t2 ∧ t3 - t2 < 2 ^ 31 * second)
    (hpos : 0 ≤ t4 - t1 - (t3 - t2)) (hmax : t4 - t1 - (t3 - t2) < 16 * second) :
    -p.tolerance pkt ≤ roundTrip t1 t4 pkt ∧ roundTrip t1 t4 pkt < maxDelay := by
  rw [roundTrip_eq hreceive htransmit hclient hserver]
  obtain ⟨hlow₁, hhigh₁⟩ := Ntp.units_sub t4 t1
  obtain ⟨hlow₂, hhigh₂⟩ := Ntp.units_sub t3 t2
  generalize Ntp.units t4 - Ntp.units t1 = a at *
  generalize Ntp.units t3 - Ntp.units t2 = b at *
  have hunder : -1 ≤ a - b := by
    unfold second at *
    omega
  have hover : a - b < 16 * 2 ^ 32 := by
    unfold second at *
    omega
  constructor
  · have htolerance := tolerance_ge p pkt
    have hcast : (-1 : ℚ) ≤ (a - b : ℤ) := by exact_mod_cast hunder
    have : (-1 : ℚ) / 2 ^ 32 ≤ (a - b : ℤ) / 2 ^ 32 := by gcongr
    norm_num at *
    linarith
  · rw [div_lt_iff₀ (by norm_num), maxDelay]
    exact_mod_cast hover

/-! ## The formulas on the encoded timestamps -/

/-- The instant that a timestamp encodes, in seconds since 1900. -/
def encoded (t : ℤ) : ℚ := Ntp.units t / 2 ^ 32

/-- The offset of the server's clock, from the four instants of an exchange. -/
def offsetOf (t1 t2 t3 t4 : ℚ) : ℚ := ((t2 - t1) + (t3 - t4)) / 2

/-- The round trip. -/
def delayOf (t1 t2 t3 t4 : ℚ) : ℚ := (t4 - t1) - (t3 - t2)

/-- The differences that an exchange takes are all below 68 years. -/
structure SameEra (t1 t2 t3 t4 : ℤ) : Prop where
  client : |t4 - t1| < 2 ^ 31 * second
  server : |t3 - t2| < 2 ^ 31 * second
  request : |t2 - t1| < 2 ^ 31 * second
  reply : |t3 - t4| < 2 ^ 31 * second

/-- Then a difference is that of the encoded instants. -/
theorem sub_encoded {t u : ℤ} (h : |t - u| < 2 ^ 31 * second) :
    (Ntp.fromTime t).sub (Ntp.fromTime u) = encoded t - encoded u := by
  obtain ⟨hlow, hhigh⟩ := abs_lt.mp h
  rw [Ntp.sub_fromTime (by rwa [neg_mul]) hhigh, encoded, encoded]
  push_cast
  ring

/-- A packet with the readings `t2` and `t3` of a server's clock, which may be off by a
number of eras. -/
structure ReadAt (pkt : Packet) (t2 t3 k : ℤ) : Prop where
  receive : pkt.receiveTime = Ntp.fromTime (t2 + k * (Ntp.eraLength * second))
  transmit : pkt.transmitTime = Ntp.fromTime (t3 + k * (Ntp.eraLength * second))

theorem roundTrip_encoded {t1 t2 t3 t4 k : ℤ} (hera : SameEra t1 t2 t3 t4)
    (hread : ReadAt pkt t2 t3 k) :
    roundTrip t1 t4 pkt = delayOf (encoded t1) (encoded t2) (encoded t3) (encoded t4) := by
  rw [roundTrip, hread.receive, hread.transmit, Ntp.fromTime_era, Ntp.fromTime_era,
    sub_encoded hera.client, sub_encoded hera.server, delayOf]

/-- The offset as computed from the four timestamps. -/
theorem offset_encoded {t1 t2 t3 t4 k : ℤ} (hera : SameEra t1 t2 t3 t4)
    (hread : ReadAt pkt t2 t3 k) :
    (pkt.receiveTime.sub (Ntp.fromTime t1) + pkt.transmitTime.sub (Ntp.fromTime t4)) / 2 =
      offsetOf (encoded t1) (encoded t2) (encoded t3) (encoded t4) := by
  rw [hread.receive, hread.transmit, Ntp.fromTime_era, Ntp.fromTime_era,
    sub_encoded hera.request, sub_encoded hera.reply, offsetOf]

/-- What a result without an error holds. -/
structure Sampled (r : ExchangeResult) (pkt : Packet) : Prop where
  packet : r.packet = some pkt
  offset : r.offset = (pkt.receiveTime.sub (Ntp.fromTime r.t1) +
    pkt.transmitTime.sub (Ntp.fromTime r.t4)) / 2
  delay : r.delay = max 0 (roundTrip r.t1 r.t4 pkt)

theorem assess_sampled {r : ExchangeResult} (hpacket : res.packet = some pkt)
    (h : p.assess res pkt = (r, none)) : Sampled r pkt := by
  unfold ExchangeParams.assess at h
  dsimp only at h
  split at h
  · split at h <;> cases h
  split at h
  · cases h
  split at h
  · cases h
  split at h
  · cases h
  split at h
  · cases h
  split at h
  · cases h
  split at h
  · cases h
  cases h
  refine ⟨hpacket, rfl, ?_⟩
  dsimp only
  split
  · rename_i hneg
    exact (max_eq_left hneg.le).symm
  · rename_i hpos
    exact (max_eq_right (not_lt.mp hpos)).symm

/-- Every exchange that gives a sample takes it from the packet in its result. -/
theorem exchange_sampled {aes : Cipher} {nonce : Ntp.Time} {s : Socket} {r : ExchangeResult}
    (h : p.exchange aes nonce s = (r, none)) : ∃ pkt, Sampled r pkt := by
  unfold ExchangeParams.exchange at h
  split at h
  · cases h
  generalize s.arrivals = arrivals at h
  induction arrivals with
  | nil => cases h
  | cons a rest ih =>
      rw [ExchangeParams.read] at h
      split at h
      · exact ih h
      · rename_i d _
        unfold ExchangeParams.judge at h
        dsimp only at h
        split at h
        · cases h
        split at h
        · cases h
        exact ⟨d.packet, assess_sampled rfl h⟩

/-- **Time arithmetic is exact across eras.**  An instant comes back from the wire format
with its second, for every reference within 68 years, and its nanosecond or the one
before.  The offset and the round trip of an exchange are the formulas on the encoded
instants, also when the server's clock is off by whole eras; a sample has that
offset, and that delay if it is not negative. -/
theorem exchange_exact_across_eras :
    (∀ (sec near : Int64) (nsec : ℤ), 0 ≤ nsec → nsec < 1000000000 →
      near.toInt - 2 ^ 31 < sec.toInt → sec.toInt ≤ near.toInt + 2 ^ 31 →
      ((Ntp.fromUnix sec.toInt nsec).unix near.toInt).1 = sec.toInt ∧
      (((Ntp.fromUnix sec.toInt nsec).unix near.toInt).2 = nsec ∨
        ((Ntp.fromUnix sec.toInt nsec).unix near.toInt).2 = nsec - 1)) ∧
    (∀ (pkt : Packet) (t1 t2 t3 t4 k : ℤ), SameEra t1 t2 t3 t4 → ReadAt pkt t2 t3 k →
      roundTrip t1 t4 pkt = delayOf (encoded t1) (encoded t2) (encoded t3) (encoded t4)) ∧
    ∀ (aes : Cipher) (p : ExchangeParams) (nonce : Ntp.Time) (s : Socket) (r : ExchangeResult),
      p.exchange aes nonce s = (r, none) →
      ∃ pkt, r.packet = some pkt ∧
        ∀ t2 t3 k : ℤ, SameEra r.t1 t2 t3 r.t4 → ReadAt pkt t2 t3 k →
          r.offset = offsetOf (encoded r.t1) (encoded t2) (encoded t3) (encoded r.t4) ∧
          r.delay = max 0 (delayOf (encoded r.t1) (encoded t2) (encoded t3) (encoded r.t4)) := by
  refine ⟨?_, ?_, ?_⟩
  · intro sec near nsec hlow hhigh hafter hbefore
    exact Ntp.unix_fromUnix ⟨sec.le_toInt, sec.toInt_lt⟩ ⟨hlow, hhigh⟩ ⟨hafter, hbefore⟩
  · intro pkt t1 t2 t3 t4 k hera hread
    exact roundTrip_encoded hera hread
  · intro aes p nonce s r h
    obtain ⟨pkt, hsampled⟩ := exchange_sampled h
    refine ⟨pkt, hsampled.packet, fun t2 t3 k hera hread => ?_⟩
    rw [hsampled.offset, hsampled.delay, offset_encoded hera hread, roundTrip_encoded hera hread]
    exact ⟨rfl, rfl⟩

end Assess

end Carillon.Source
