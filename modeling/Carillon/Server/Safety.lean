/-
# What the server promises

Three properties of every call, in every state: a response is no longer than its
request; what is signed, and for whom, follows the rules of the configuration; and the
datagram is counted exactly once.
-/
import Carillon.Server.Ends

namespace Carillon.Server

open Ntp (Packet Key MAC Decoded Cipher IsField Supported)
open Leap (Message)
open Octets (put)

/-! ## The form of a response -/

/-- The request carries a MAC that a key of the ring verifies. -/
def Verified (aes : Cipher) (p : Policy) (request : Bytes) (key : Key) : Prop :=
  ∃ d mac, Ntp.decode request = .ok d ∧ d.mac = some mac ∧ p.keys mac.keyID = some key ∧
    key.verify aes (request.take d.macOffset) mac = true

/-- A request that verifies carries the right code. -/
theorem verified_of_verify {aes : Cipher} {p : Policy} {request : Bytes} {d : Decoded} {key : Key}
    (hd : Ntp.decode request = .ok d) (h : p.verify aes request d = some (some key)) :
    Verified aes p request key := by
  unfold Policy.verify at h
  split at h
  · cases h
  · rename_i mac hmac
    by_cases hnak : mac.isCryptoNAK = true
    · rw [if_pos hnak] at h
      cases h
    rw [if_neg hnak] at h
    split at h
    · cases h
    · rename_i key' hkey
      split_ifs at h with hverify
      cases h
      exact ⟨d, mac, hd, hmac, hkey, hverify⟩

/-- A verified request ends with 20 bytes of MAC. -/
theorem Verified.length {aes : Cipher} {p : Policy} {request : Bytes} {key : Key} {d : Decoded}
    (h : Verified aes p request key) (hd : Ntp.decode request = .ok d) :
    request.length = d.macOffset + 20 := by
  obtain ⟨d', mac, hd', hmac, -, hverify⟩ := h
  obtain rfl : d = d' := Except.ok.inj (hd.symm.trans hd')
  have hdigest : mac.digest.length = 16 := by
    rw [Ntp.verify_eq hverify]
    exact Vector.length_toList
  have htrailer := (Ntp.framed_of_decode hd).trailer
  rw [hmac] at htrailer
  generalize hm : some mac = m at htrailer
  cases htrailer with
  | absent => cases hm
  | nak =>
    cases hm
    cases hdigest
  | mac hlen =>
    cases hm
    rw [List.length_drop] at hdigest
    omega

/-- **The two forms of a response.**  A crypto-NAK answers a request that has room for
it.  Any other response is a header, extension fields and the signature of the key that
the client was admitted under; without a key there are no fields, and they take no more
room than those of the request. -/
theorem Answer.form {cr : Crypto} {p : Policy} {call : Call} {drawn : Option (BucketKey × Bool)}
    {out : Bytes} (h : Answer cr p call drawn out)
    (hd : Ntp.decode call.request = .ok call.decoded) :
    (∃ header : Packet, Supported header.version ∧ out = header.marshal ++ put 4 (0 : BitVec 32) ∧
      52 ≤ call.request.length) ∨
    ∃ (key : Option Key) (header : Packet) (fields : List Bytes),
      Admitted cr.aes p call.request call.decoded call.addr key ∧
      Supported header.version ∧ (∀ f ∈ fields, IsField f) ∧ (key = none → fields = []) ∧
      48 + fields.flatten.length ≤ call.decoded.macOffset ∧
      out = sign cr.aes key (header.marshal ++ fields.flatten) := by
  have hframed := Ntp.framed_of_decode hd
  have hge := hframed.offset_ge
  have hversion : ∀ st receive refID special transmit,
      Supported (p.sent call.decoded.packet receive st refID special transmit).version := by
    intro st receive refID special transmit
    rw [(sent_fixed _ _ _ _ _ _ _).1]
    exact hframed.version
  have hplain : ∀ f ∈ ([] : List Bytes), IsField f := fun _ hf => absurd hf List.not_mem_nil
  cases h with
  | nak _ sent =>
    left
    unfold Policy.cryptoNAK at sent
    split at sent
    · cases sent
    split_ifs at sent with hshort
    rw [not_or, not_lt] at hshort
    rw [reply_eq (by simp), Option.map_some, fieldOf, Option.elim_none, List.append_nil] at sent
    exact ⟨_, hversion _ _ _ _ _, (Option.some.inj sent).symm, hshort.2⟩
  | @kiss key bucket out admitted sent =>
    right
    exact ⟨key, _, [], admitted, hversion _ _ _ _ _, hplain, fun _ => rfl, hge, eq_of_reply sent⟩
  | @time key message bucket out admitted answered sent =>
    right
    cases message with
    | none =>
      exact ⟨key, _, [], admitted, hversion _ _ _ _ _, hplain, fun _ => rfl, hge, eq_of_reply sent⟩
    | some m =>
      obtain ⟨⟨k, hk⟩, hlen, -⟩ := extension_spec answered
      have hvalid := valid_of_reply sent m rfl
      have hout := eq_of_reply sent
      rw [show fieldOf (some m) = [m.field].flatten from List.flatten_singleton.symm] at hout
      refine ⟨key, _, [m.field], admitted, hversion _ _ _ _ _, ?_, ?_, ?_, hout⟩
      · intro f hf
        rw [List.mem_singleton.mp hf]
        exact Leap.isField_field hvalid
      · intro hnone
        rw [hk] at hnone
        cases hnone
      · have h := hlen hvalid
        rw [Octets.length_extract hframed.offset_le, Ntp.headerSize] at h
        rw [List.flatten_singleton, Leap.field_length hvalid]
        omega

theorem length_sign_none (aes : Cipher) (b : Bytes) : (sign aes none b).length = b.length :=
  rfl

theorem length_sign_some (aes : Cipher) (k : Key) (b : Bytes) :
    (sign aes (some k) b).length = b.length + 20 :=
  Ntp.append_length k b

/-! ## No amplification -/

/-- **No response is longer than its request.** -/
theorem no_amplification (cr : Crypto) (h : Handler) (env : Env) (request : Bytes)
    (client : AddrPort) (receive mono : ℤ) (out : Bytes)
    (hout : (h.handle cr env request client receive mono).response = some out) :
    out.length ≤ request.length := by
  obtain ⟨d, hreq, hans⟩ := handle_answer hout
  have hd := hreq.decoded
  have hlen := (Ntp.framed_of_decode hd).length
  rcases hans.form hd with ⟨header, -, rfl, hroom⟩ |
    ⟨key, header, fields, hadmitted, -, -, hnone, hle, rfl⟩
  · rw [List.length_append, Ntp.marshal_length, Octets.length_put]
    exact hroom
  · cases key with
    | none =>
      rw [length_sign_none, hnone rfl, List.flatten_nil, List.append_nil, Ntp.marshal_length]
      exact hlen
    | some k =>
      have hverified : request.length = d.macOffset + 20 :=
        (verified_of_verify hd hadmitted.verify).length hd
      rw [length_sign_some, List.length_append, Ntp.marshal_length, hverified]
      exact Nat.add_le_add_right hle 20

/-- The counters of a new server. -/
def noCounts : Counters where
  served := 0
  unsynced := 0
  kod := 0
  denied := 0
  martian := 0
  rateLimited := 0
  badAuth := 0
  badVersion := 0
  nonClient := 0
  malformed := 0
  clients := 0
  modes := fun _ => 0
  versions := fun _ => 0
  lastRequest := 0
  lastServed := 0

/-- A key, under a cipher that only mixes in the secret. -/
def labKey : Key := ⟨1, Vector.replicate 16 7⟩

def labCrypto : Crypto := ⟨fun k b => Ntp.xorInto k b, fun _ => Vector.replicate 32 1⟩

/-- A server of 192.0.2.0/24 that requires the key of its upper half, and another one of
a single address in it. -/
def labConfig : Config where
  allow := [.v4 0xc0000200 24]
  deny := [.v4 0xc0000201 32]
  requireKey := [⟨.v4 0xc0000280 25, 1⟩, ⟨.v4 0xc00002ff 32, 2⟩]
  keys := fun id => if id = 1 then some labKey else none
  rateLimitPPS := 1
  rateBurst := 2
  maxClients := 4
  rateLimitV6Prefix := 64
  kod := true
  minPoll := 6
  stats := ⟨noCounts, noCounts⟩

def labEnv : Env where
  status :=
    { synced := true, leap := .none, stratum := 1, precision := -20, rootDelay := 0
      rootDispersion := 0, referenceID := Ntp.refIDFromString "PPS", referenceTime := 0 }
  wall := 0
  transmit := 0
  leap := none
  current := none
  others := ⟨[], []⟩

/-- A client in the upper half, and its signed request. -/
def labClient : AddrPort := ⟨.v4 0xc0000290, 123⟩

def labRequest : Bytes := labKey.append labCrypto.aes (0x23 :: List.replicate 47 0)

def labResult : Result := labConfig.handler.handle labCrypto labEnv labRequest labClient 0 0

theorem labResult_length : labResult.response.map List.length = some 68 := by
  decide +kernel

theorem no_amplification_labRequest :
    ∃ out, labResult.response = some out ∧ out.length ≤ labRequest.length := by
  obtain ⟨out, hout, -⟩ := Option.map_eq_some_iff.mp labResult_length
  exact ⟨out, hout, no_amplification labCrypto labConfig.handler labEnv labRequest
    labClient 0 0 out hout⟩

/-! ## Authentication -/

/-- The key that a rule names.  The id 0 names none: neither the key file nor the
configuration accepts it. -/
def KeyRule.key? (r : KeyRule) : Option (BitVec 32) :=
  if r.keyID = 0 then none else some r.keyID

/-- The entry of `RequireKey` with the longest prefix around an address. -/
structure Config.LongestMatch (cfg : Config) (addr : Addr) (r : KeyRule) : Prop where
  mem : r ∈ cfg.requireKey
  contains : r.pfx.masked.contains addr = true
  longest : ∀ r' ∈ cfg.requireKey, r'.pfx.masked.contains addr = true → r'.pfx.bits ≤ r.pfx.bits

theorem Prefix.bits_masked (p : Prefix) : p.masked.bits = p.bits := by
  cases p <;> rfl

/-- **The rules come in an order in which the first match is the longest.** -/
theorem Config.LongestMatch.find {cfg : Config} {addr : Addr} {r : KeyRule}
    (hdistinct : (cfg.requireKey.map (·.pfx.masked)).Nodup) (h : cfg.LongestMatch addr r) :
    cfg.rules.find? (·.pfx.contains addr) = some ⟨r.pfx.masked, r.keyID⟩ := by
  have hmem : ∀ x, x ∈ cfg.rules ↔ ∃ r' ∈ cfg.requireKey, (⟨r'.pfx.masked, r'.keyID⟩ : KeyRule) =
      x := by
    intro x
    unfold Config.rules
    rw [List.mem_insertionSort, List.mem_map]
  have hsorted : cfg.rules.Pairwise fun a b => b.pfx.bits ≤ a.pfx.bits := by
    have : Std.Total fun a b : KeyRule => b.pfx.bits ≤ a.pfx.bits := ⟨fun a b => le_total _ _⟩
    have : IsTrans KeyRule fun a b => b.pfx.bits ≤ a.pfx.bits :=
      ⟨fun a b c hab hbc => hbc.trans hab⟩
    exact List.pairwise_insertionSort _ _
  cases hfind : cfg.rules.find? (·.pfx.contains addr) with
  | none =>
    rw [List.find?_eq_none] at hfind
    exact absurd h.contains (hfind _ ((hmem _).mpr ⟨r, h.mem, rfl⟩))
  | some x =>
    obtain ⟨hx, pre, post, hsplit, hpre⟩ := List.find?_eq_some_iff_append.mp hfind
    obtain ⟨r', hr', rfl⟩ := (hmem x).mp (hsplit ▸ by simp)
    -- the first match is no shorter than the longest, so the two prefixes are equal
    have hge : r.pfx.bits ≤ r'.pfx.bits := by
      have hin : (⟨r.pfx.masked, r.keyID⟩ : KeyRule) ∈ cfg.rules := (hmem _).mpr ⟨r, h.mem, rfl⟩
      rw [hsplit, List.mem_append, List.mem_cons] at hin
      rcases hin with hin | hin | hin
      · exact absurd h.contains (by simpa using hpre _ hin)
      · rw [← Prefix.bits_masked r.pfx, ← Prefix.bits_masked r'.pfx]
        exact le_of_eq (congrArg (·.pfx.bits) hin)
      · rw [hsplit] at hsorted
        have hle := List.rel_of_pairwise_cons (List.pairwise_append.mp hsorted).2.1 hin
        rwa [Prefix.bits_masked, Prefix.bits_masked] at hle
    have hbits : r'.pfx.masked.bits = r.pfx.masked.bits := by
      rw [Prefix.bits_masked, Prefix.bits_masked]
      exact le_antisymm (h.longest r' hr' hx) hge
    have hpfx : r'.pfx.masked = r.pfx.masked :=
      Prefix.eq_of_contains (Prefix.masked_masked _) (Prefix.masked_masked _) hx h.contains hbits
    have heq : r' = r := List.inj_on_of_nodup_map hdistinct hr' h.mem hpfx
    rw [heq]

/-- The response is a crypto-NAK. -/
def IsCryptoNAK (out : Bytes) : Prop :=
  out.length = 52 ∧ ∃ p, Ntp.decode out = .ok ⟨p, some ⟨0, []⟩, 48⟩

/-- **The authentication policy.**  What carries a MAC is signed under a key that
verified the request; a client under a rule is answered, but for crypto-NAKs, under the
key of its longest match only; and a client on the deny list is not answered.  The
order of the configured entries does not matter. -/
theorem authentication_policy (cr : Crypto) (cfg : Config) (h₀ h : Handler)
    (hcfg : newHandler cfg = .ok h₀) (hstate : h.policy = h₀.policy)
    (hdistinct : (cfg.requireKey.map (·.pfx.masked)).Nodup)
    (env : Env) (request : Bytes) (client : AddrPort) (receive mono : ℤ) :
    (∀ out d mac, (h.handle cr env request client receive mono).response = some out →
      Ntp.decode out = .ok d → d.mac = some mac → mac.isCryptoNAK = false →
      ∃ key, Verified cr.aes h.policy request key ∧ out = key.append cr.aes
        (out.take d.macOffset)) ∧
    (∀ r k out, cfg.LongestMatch client.addr.unmap r → r.key? = some k →
      (h.handle cr env request client receive mono).response = some out → ¬IsCryptoNAK out →
      ∃ key body, key.id = k ∧ Verified cr.aes h.policy request key ∧
        out = key.append cr.aes body) ∧
    ((∃ p ∈ cfg.deny, p.masked.contains client.addr.unmap = true) →
      (h.handle cr env request client receive mono).response = none) := by
  obtain ⟨-, rfl⟩ := newHandler_ok hcfg
  have hrules : h.policy.requireKey = cfg.rules := congrArg Policy.requireKey hstate
  have hdeny : h.policy.deny = cfg.deny.map Prefix.masked := congrArg Policy.deny hstate
  rcases handle_cases cr h env request client receive mono with hrefused | ⟨d, hreq, hends⟩
  · rw [hrefused.response]
    exact ⟨nofun, nofun, fun _ => rfl⟩
  have hd := hreq.decoded
  refine ⟨?_, ?_, ?_⟩
  · intro out d' mac hout hd' hmac hnak
    rcases (hends.response out hout).form hd with ⟨header, hversion, rfl, -⟩ |
      ⟨key, header, fields, hadmitted, hversion, hfields, hnone, -, rfl⟩
    · rw [Ntp.decode_nak header hversion] at hd'
      cases hd'
      cases hmac
      cases hnak
    · cases key with
      | none =>
        -- an unsigned response has no trailer
        rw [hnone rfl, List.flatten_nil, List.append_nil] at hd'
        have hplain := Ntp.decode_framed header hversion [] nofun [] (.inr (.inr ⟨rfl, nofun⟩))
        rw [List.flatten_nil, List.append_nil, List.append_nil] at hplain
        cases hplain.symm.trans hd'
        cases hmac
      | some key =>
        refine ⟨key, verified_of_verify hd hadmitted.verify, ?_⟩
        change Ntp.decode (key.append cr.aes (header.marshal ++ fields.flatten)) = _ at hd'
        cases (Ntp.decode_append key header hversion fields hfields).symm.trans hd'
        have hbody : (header.marshal ++ fields.flatten).length = 48 + fields.flatten.length := by
          rw [List.length_append, Ntp.marshal_length]
        have htake : (sign cr.aes (some key) (header.marshal ++ fields.flatten)).take
            (48 + fields.flatten.length) = header.marshal ++ fields.flatten :=
          List.take_left' hbody
        rw [htake]
        rfl
  · intro r k out hmatch hk hout hnak
    have hne : r.keyID ≠ 0 ∧ r.keyID = k := by
      unfold KeyRule.key? at hk
      split_ifs at hk with hzero
      exact ⟨hzero, Option.some.inj hk⟩
    have hrequired : h.policy.requiredKey client.addr.unmap = r.keyID := by
      unfold Policy.requiredKey
      rw [hrules, hmatch.find hdistinct]
      rfl
    rcases (hends.response out hout).form hd with ⟨header, hversion, rfl, -⟩ |
      ⟨key, header, fields, hadmitted, -, -, -, -, rfl⟩
    · refine absurd ⟨?_, header, Ntp.decode_nak header hversion⟩ hnak
      rw [List.length_append, Ntp.marshal_length, Octets.length_put]
    · have hid := hadmitted.required (by rw [hrequired]; exact hne.1)
      cases key with
      | none => cases hid
      | some key =>
        rw [hrequired, hne.2] at hid
        exact ⟨key, _, Option.some.inj hid, verified_of_verify hd hadmitted.verify, rfl⟩
  · rintro ⟨p, hp, hcontains⟩
    -- the call did not get past the lists
    have hpermitted := hreq.permitted
    have hmatch : matchesAny h.policy.deny client.addr.unmap = true := by
      rw [hdeny]
      exact List.any_eq_true.mpr ⟨p.masked, List.mem_map_of_mem hp, hcontains⟩
    rw [Policy.permitted, if_pos hmatch] at hpermitted
    cases hpermitted

theorem authentication_policy_labRequest :
    ∃ out key body, labResult.response = some out ∧ key.id = 1 ∧
      Verified labCrypto.aes labConfig.handler.policy labRequest key ∧
      out = key.append labCrypto.aes body := by
  obtain ⟨out, hout, hlen⟩ := Option.map_eq_some_iff.mp labResult_length
  have hcfg : newHandler labConfig = .ok labConfig.handler :=
    if_neg (not_not.mpr (by decide +kernel))
  have hmatch : labConfig.LongestMatch labClient.addr.unmap ⟨.v4 0xc0000280 25, 1⟩ :=
    ⟨List.mem_cons_self, by decide, by decide⟩
  have hnak : ¬IsCryptoNAK out := by
    intro h
    rw [h.1] at hlen
    cases hlen
  obtain ⟨key, body, hkey⟩ :=
    (authentication_policy labCrypto labConfig _ labConfig.handler hcfg rfl (by decide)
      labEnv labRequest labClient 0 0).2.1 _ 1 out hmatch rfl hout hnak
  exact ⟨out, key, body, hout, hkey⟩

/-! ## Accounting -/

/-- One outcome is counted, in the family of the address; kisses and unsynchronised
replies only along with theirs. -/
structure Counted (s s' : Stats) (addr : Addr) (o : Outcome) : Prop where
  one : (s'.family addr).get o = (s.family addr).get o + 1
  others : ∀ o' ≠ o, (s'.family addr).get o' = (s.family addr).get o'
  kod : (s'.family addr).kod = (s.family addr).kod ∨
    o = .rateLimited ∧ (s'.family addr).kod = (s.family addr).kod + 1
  unsynced : (s'.family addr).unsynced = (s.family addr).unsynced ∨
    o = .served ∧ (s'.family addr).unsynced = (s.family addr).unsynced + 1
  otherFamily : ∀ addr', addr'.unmap.is4 ≠ addr.unmap.is4 → s'.family addr' = s.family addr'

/-- A count in one family, over the statistics. -/
theorem Tallies.counted {f : Counters → Counters} {o : Outcome} (h : Tallies f o) (s : Stats)
    (addr : Addr) : Counted s (s.update addr f) addr o := by
  have hfamily : (s.update addr f).family addr = f (s.family addr) := by
    rw [family_update, if_pos rfl]
  constructor
  · rw [hfamily, h.get, if_pos rfl]
  · intro o' hne
    rw [hfamily, h.get, if_neg hne, Nat.add_zero]
  · rw [hfamily]
    exact h.kod _
  · rw [hfamily]
    exact h.unsynced _
  · intro addr' hne
    rw [family_update, if_neg hne]

/-- **Every call counts exactly one outcome.** -/
theorem outcome_accounting (cr : Crypto) (h : Handler) (env : Env) (request : Bytes)
    (client : AddrPort) (receive mono : ℤ)
    (hash : ∀ o ∈ env.current, cr.sha256 o.data ≠ Vector.replicate 32 0) :
    ∃ o, Counted h.stats (h.handle cr env request client receive mono).handler.stats
      client.addr.unmap o := by
  rcases handle_cases cr h env request client receive mono with hrefused | ⟨d, -, hends⟩
  · obtain ⟨f, o, hstats, htally⟩ := hrefused.counted
    rw [hstats]
    exact ⟨o, htally.counted _ _⟩
  · obtain ⟨f, o, hstats, htally⟩ := hends.counted hash
    rw [hstats]
    exact ⟨o, htally.counted _ _⟩

theorem outcome_accounting_labRequest :
    ∃ o, Counted labConfig.stats labResult.handler.stats labClient.addr.unmap o :=
  outcome_accounting labCrypto labConfig.handler labEnv labRequest labClient 0 0
    fun _ _ => (by decide : (Vector.replicate 32 1 : Leap.Digest) ≠ Vector.replicate 32 0)

end Carillon.Server
