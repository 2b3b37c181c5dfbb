/-
# How a call of the server can end

`Handle` has thirteen returns.  One lemma for each of its parts says what they have in
common: which buckets were drawn on, what was counted and how a response came about.
What is proved of the server below is read off from these, never from its text.
-/
import Carillon.Server.Responder

namespace Carillon.Server

open Ntp (Key Decoded Cipher)
open Leap (Digest Message)

/-- The limiter after draws on some buckets at one time. -/
def RateLimiter.drawAll (l : RateLimiter) (ks : List BucketKey) (mono : ℤ) : RateLimiter :=
  ks.foldl (fun l k => (l.allow k mono).1) l

/-- The trailer of the request verified under the key, or there was none; and it is the
key that a rule requires. -/
structure Admitted (aes : Cipher) (p : Policy) (request : Bytes) (d : Decoded) (addr : Addr)
    (key : Option Key) : Prop where
  verify : p.verify aes request d = some key
  required : p.requiredKey addr ≠ 0 → key.map (·.id) = some (p.requiredKey addr)

/-- The parameters of a call, after its checks. -/
structure Call where
  env : Env
  request : Bytes
  decoded : Decoded
  addr : Addr
  receive : ℤ
  mono : ℤ

section Ends

variable (cr : Crypto) (p : Policy) (call : Call)

/-- How a response came about, with the service bucket that the call drew on. -/
inductive Answer : Option (BucketKey × Bool) → Bytes → Prop
  | nak {out : Bytes} (unverified : p.verify cr.aes call.request call.decoded = none)
      (sent : p.cryptoNAK cr.aes call.env call.request call.decoded call.receive = some out) :
      Answer none out
  | kiss {key : Option Key} {bucket : BucketKey} {out : Bytes}
      (admitted : Admitted cr.aes p call.request call.decoded call.addr key)
      (sent : p.reply cr.aes call.decoded.packet call.receive call.env.status
        Ntp.kissRATE key true none call.env.transmit = some out) :
      Answer (some (bucket, false)) out
  | time {key : Option Key} {message : Option Message} {bucket : BucketKey} {out : Bytes}
      (admitted : Admitted cr.aes p call.request call.decoded call.addr key)
      (answered : (extension cr.sha256 call.env call.request call.decoded key call.mono).2 =
        .ok message)
      (sent : p.reply cr.aes call.decoded.packet call.receive call.env.status
        call.env.status.refID key (!call.env.status.synced) message call.env.transmit = some out) :
      Answer (some (bucket, true)) out

/-- What the rest of a call does, from the handler `h`: draws on the crypto budget and
perhaps on a service bucket, one outcome, and perhaps a response. -/
structure Ends (h : Handler) (r : Result) : Prop where
  policy : r.handler.policy = h.policy
  limiter : ∃ metered : List BucketKey, (∀ k ∈ metered, k.space = .crypto) ∧
    r.handler.limiter = h.limiter.drawAll (metered ++ (r.drawn.map (·.1)).toList) call.mono
  bucket : ∀ k b, r.drawn = some (k, b) → ∃ key,
    Admitted cr.aes p call.request call.decoded call.addr key ∧
      k = h.limiter.key call.addr (keyIDOf key)
  counted : (∀ o ∈ call.env.current, cr.sha256 o.data ≠ Vector.replicate 32 0) →
    ∃ f o, r.handler.stats = h.stats.update call.addr f ∧ Tallies f o
  response : ∀ out, r.response = some out → Answer cr p call r.drawn out

end Ends

/-- A message that the distributor returns validates, and is no longer than the fields
of the request. -/
theorem extension_spec {sha256 : Bytes → Digest} {env : Env} {request : Bytes} {d : Decoded}
    {key : Option Key} {mono : ℤ} {m : Message}
    (h : (extension sha256 env request d key mono).2 = .ok (some m)) :
    (∃ k, key = some k) ∧
      (m.Valid → m.length ≤ (request.extract Ntp.headerSize d.macOffset).length) ∧
      ((∀ o ∈ env.current, sha256 o.data ≠ Vector.replicate 32 0) → m.Valid) := by
  unfold extension at h
  split at h
  · rename_i leap k hleap
    refine ⟨⟨k, rfl⟩, ?_⟩
    split_ifs at h
    · split at h
      · cases h
      · cases h
      · cases h
      · rename_i req hreq
        dsimp only at h
        split at h
        · cases h
        · rename_i r hr
          obtain rfl : r = m := Option.some.inj (Except.ok.inj h)
          obtain ⟨-, -, hreply⟩ := Leap.respond_ok hr
          obtain ⟨hvalid, hle⟩ := Leap.decodeFields_found hreq
          obtain ⟨-, hreplies⟩ := Leap.reply_replies hreply
          refine ⟨fun hm => (hreplies.length_le hvalid hm).trans hle, ?_⟩
          intro hash
          refine Leap.reply_valid ?_ hreply
          intro o ho
          exact hash o (Option.filter_eq_some_iff.mp ho).1
    · cases h
  · cases h

/-- **Service.** -/
theorem serve_ends {cr : Crypto} {h : Handler} {call : Call} {key : Option Key}
    (admitted : Admitted cr.aes h.policy call.request call.decoded call.addr key) :
    Ends cr h.policy call h
      (h.serve cr call.env call.request call.decoded call.addr key call.receive call.mono) := by
  set bucket := h.limiter.key call.addr (keyIDOf key) with hbucket
  -- everything that is counted comes after the number of clients
  have hpublish : ∀ f : Counters → Counters,
      ((h.draw bucket call.mono).publishClients call.addr).stats.update call.addr f =
        h.stats.update call.addr
          (f ∘ (·.addClients ((h.draw bucket call.mono).limiter.size - h.publishedClients))) :=
    fun f => update_update _ _ _ _
  have hpublish' : ∀ f g : Counters → Counters,
      (((h.draw bucket call.mono).publishClients call.addr).stats.update call.addr f).update
      call.addr g =
        h.stats.update call.addr
          ((g ∘ f) ∘ (·.addClients
            ((h.draw bucket call.mono).limiter.size - h.publishedClients))) :=
    fun f g => (update_update _ _ _ _).trans (hpublish _)
  have hquiet := quiet_addClients ((h.draw bucket call.mono).limiter.size - h.publishedClients)
  have hlimiter : ∃ metered : List BucketKey, (∀ k ∈ metered, k.space = .crypto) ∧
      (h.limiter.allow bucket call.mono).1 = h.limiter.drawAll (metered ++ [bucket]) call.mono :=
    ⟨[], nofun, rfl⟩
  have hdrawn : ∀ (b : Bool) k b', some (bucket, b) = some (k, b') → ∃ key,
      Admitted cr.aes h.policy call.request call.decoded call.addr key ∧
        k = h.limiter.key call.addr (keyIDOf key) := by
    intro b k b' heq
    cases heq
    exact ⟨key, admitted, rfl⟩
  unfold Handler.serve
  dsimp only
  rw [← hbucket]
  by_cases hallowed : (h.limiter.allow bucket call.mono).2.1 = false
  · rw [if_pos hallowed]
    split_ifs with hkod
    · refine ⟨rfl, hlimiter, hdrawn false, ?_, nofun⟩
      intro _
      exact ⟨_, _, hpublish _, (tallies_add .rateLimited).after hquiet⟩
    · refine ⟨rfl, hlimiter, hdrawn false, ?_, ?_⟩
      · intro _
        exact ⟨_, _, hpublish' _ _, tallies_addKod.after hquiet⟩
      · intro out hout
        exact .kiss admitted hout
  · rw [if_neg hallowed]
    split
    · rename_i o hext
      refine ⟨rfl, hlimiter, hdrawn true, ?_, nofun⟩
      intro _
      exact ⟨_, _, hpublish _, (tallies_add o).after hquiet⟩
    · rename_i message hext
      split
      · rename_i hnone
        refine ⟨rfl, hlimiter, hdrawn true, ?_, nofun⟩
        intro hash
        -- the reply is always written
        have hvalid : ∀ m ∈ message, m.Valid := by
          rintro m rfl
          exact (extension_spec hext).2.2 hash
        exact absurd (hnone.symm.trans (reply_eq hvalid)) nofun
      · rename_i response hsome
        refine ⟨rfl, hlimiter, hdrawn true, ?_, ?_⟩
        · intro _
          exact ⟨_, _, hpublish' _ _, ((tallies_serve _ _).after (quiet_accept _ _)).after hquiet⟩
        · intro out hout
          cases hout
          exact .time admitted hext hsome

/-- **Authentication** ends the call, or admits it. -/
theorem authenticate_cases (cr : Crypto) (h : Handler) (call : Call) :
    (∃ r, h.authenticate cr.aes call.env call.request call.decoded call.addr
      call.receive call.mono = .inl r ∧ Ends cr h.policy call h r) ∨
    ∃ h' key, h.authenticate cr.aes call.env call.request call.decoded call.addr
      call.receive call.mono =
      .inr (h', key) ∧ Admitted cr.aes h.policy call.request call.decoded call.addr key ∧
        (h' = h ∨ h' = h.draw (h.limiter.cryptoKey call.addr) call.mono) := by
  set crypto := h.limiter.cryptoKey call.addr with hcrypto
  -- a call that ends here has drawn on the crypto budget, or on none
  have hnone : ∃ metered : List BucketKey, (∀ k ∈ metered, k.space = .crypto) ∧
      h.limiter = h.limiter.drawAll (metered ++ []) call.mono :=
    ⟨[], nofun, rfl⟩
  have hone : ∃ metered : List BucketKey, (∀ k ∈ metered, k.space = .crypto) ∧
      (h.draw crypto call.mono).limiter = h.limiter.drawAll (metered ++ []) call.mono := by
    refine ⟨[crypto], ?_, rfl⟩
    intro k hk
    rw [List.mem_singleton.mp hk]
    rfl
  unfold Handler.authenticate
  dsimp only
  rw [← hcrypto]
  by_cases hfree : h.policy.requiredKey call.addr = 0
  · by_cases hmac : call.decoded.mac = none
    · rw [if_pos ⟨hfree, hmac⟩]
      refine .inr ⟨h, none, rfl, ⟨?_, fun hreq => absurd hfree hreq⟩, .inl rfl⟩
      unfold Policy.verify
      rw [hmac]
    · rw [if_neg (fun hc => hmac hc.2)]
      by_cases hallowed : (h.limiter.allow crypto call.mono).2.1 = false
      · rw [if_pos ⟨hfree, hallowed⟩]
        refine .inl ⟨_, rfl, rfl, hone, nofun, ?_, nofun⟩
        intro _
        exact ⟨_, _, update_update _ _ _ _, (tallies_add .rateLimited).before (quiet_addClients _)⟩
      · rw [if_neg (fun hc => hallowed hc.2), if_pos hfree]
        split
        · rename_i hverify
          rw [if_pos hfree]
          refine .inl ⟨_, rfl, rfl, hone, nofun, ?_, ?_⟩
          · intro _
            exact ⟨_, _, rfl, tallies_add .badAuth⟩
          · intro out hout
            exact .nak hverify hout
        · rename_i key hverify
          rw [if_neg (fun hc => hc.1 hfree)]
          exact .inr ⟨_, key, rfl, ⟨hverify, fun hreq => absurd hfree hreq⟩, .inr rfl⟩
  · rw [if_neg (fun hc => hfree hc.1), if_neg (fun hc => hfree hc.1), if_neg hfree]
    split
    · rename_i hverify
      rw [if_neg hfree]
      split_ifs
      · refine .inl ⟨_, rfl, rfl, hone, nofun, ?_, nofun⟩
        intro _
        exact ⟨_, _, rfl, tallies_add .badAuth⟩
      · refine .inl ⟨_, rfl, rfl, hone, nofun, ?_, ?_⟩
        · intro _
          exact ⟨_, _, rfl, tallies_add .badAuth⟩
        · intro out hout
          exact .nak hverify hout
    · rename_i key hverify
      by_cases hkey : key.map (·.id) = some (h.policy.requiredKey call.addr)
      · rw [if_neg (fun hc => hc.2 hkey)]
        exact .inr ⟨h, key, rfl, ⟨hverify, fun _ => hkey⟩, .inl rfl⟩
      · rw [if_pos ⟨hfree, hkey⟩]
        refine .inl ⟨_, rfl, rfl, hnone, nofun, ?_, nofun⟩
        intro _
        exact ⟨_, _, rfl, tallies_add .badAuth⟩

/-- The crypto budget is drawn on before the rest of the call. -/
theorem Ends.of_draw {cr : Crypto} {p : Policy} {call : Call} {h : Handler}
    {r : Result} {k : BucketKey}
    (hk : k.space = .crypto) (hends : Ends cr p call (h.draw k call.mono) r) :
    Ends cr p call h r := by
  obtain ⟨metered, hmetered, hlimiter⟩ := hends.limiter
  refine ⟨hends.policy, ⟨k :: metered, ?_, hlimiter⟩, ?_, hends.counted, hends.response⟩
  · intro k' hk'
    rcases List.mem_cons.mp hk' with rfl | hmem
    · exact hk
    · exact hmetered k' hmem
  · intro k' b hdrawn
    obtain ⟨key, hadmitted, rfl⟩ := hends.bucket k' b hdrawn
    exact ⟨key, hadmitted, (allow_sameConfig h.limiter k call.mono).spaceKey _ _ _⟩

/-- The datagram passed the checks before authentication. -/
structure Requested (p : Policy) (request : Bytes) (client : AddrPort) (d : Decoded) : Prop where
  decoded : Ntp.decode request = .ok d
  mode : isClientRequest d.packet = true
  notMartian : martianSource client = false
  permitted : p.permitted client.addr.unmap = true

/-- The datagram was counted and dropped. -/
structure Refused (h : Handler) (addr : Addr) (r : Result) : Prop where
  policy : r.handler.policy = h.policy
  limiter : r.handler.limiter = h.limiter
  drawn : r.drawn = none
  counted : ∃ f o, r.handler.stats = h.stats.update addr f ∧ Tallies f o
  response : r.response = none

/-- **How a call ends.** -/
theorem handle_cases (cr : Crypto) (h : Handler) (env : Env) (request : Bytes) (client : AddrPort)
    (receive mono : ℤ) :
    Refused h client.addr.unmap (h.handle cr env request client receive mono) ∨
      ∃ d, Requested h.policy request client d ∧
        Ends cr h.policy ⟨env, request, d, client.addr.unmap, receive, mono⟩ h
          (h.handle cr env request client receive mono) := by
  unfold Handler.handle
  dsimp only
  split
  · exact .inl ⟨rfl, rfl, rfl, ⟨_, _, rfl, tallies_add _⟩, rfl⟩
  rename_i d hd
  by_cases hmode : isClientRequest d.packet = false
  · rw [if_pos hmode]
    exact .inl ⟨rfl, rfl, rfl, ⟨_, _, rfl, tallies_mode _⟩, rfl⟩
  rw [if_neg hmode]
  by_cases hmartian : martianSource client = true
  · rw [if_pos hmartian]
    exact .inl ⟨rfl, rfl, rfl, ⟨_, _, rfl, tallies_add _⟩, rfl⟩
  rw [if_neg hmartian]
  by_cases hpermitted : h.policy.permitted client.addr.unmap = false
  · rw [if_pos hpermitted]
    exact .inl ⟨rfl, rfl, rfl, ⟨_, _, rfl, tallies_add _⟩, rfl⟩
  rw [if_neg hpermitted]
  refine .inr ⟨d, ⟨hd, Bool.eq_true_of_not_eq_false hmode, Bool.eq_false_of_not_eq_true hmartian,
    Bool.eq_true_of_not_eq_false hpermitted⟩, ?_⟩
  let call : Call := ⟨env, request, d, client.addr.unmap, receive, mono⟩
  rcases authenticate_cases cr h call with ⟨r, hr, hends⟩ | ⟨h', key, hr, hadmitted, rfl | rfl⟩
  · rw [hr]
    exact hends
  · rw [hr]
    exact @serve_ends cr h' call key hadmitted
  · rw [hr]
    exact Ends.of_draw (k := h.limiter.cryptoKey call.addr) rfl
      (@serve_ends cr (h.draw (h.limiter.cryptoKey call.addr) call.mono) call key hadmitted)

/-- **A response has one of the three forms.** -/
theorem handle_answer {cr : Crypto} {h : Handler} {env : Env} {request : Bytes} {client : AddrPort}
    {receive mono : ℤ} {out : Bytes}
    (hout : (h.handle cr env request client receive mono).response = some out) :
    ∃ d, Requested h.policy request client d ∧
      Answer cr h.policy ⟨env, request, d, client.addr.unmap, receive, mono⟩
        (h.handle cr env request client receive mono).drawn out := by
  rcases handle_cases cr h env request client receive mono with hrefused | ⟨d, hreq, hends⟩
  · rw [hrefused.response] at hout
    cases hout
  · exact ⟨d, hreq, hends.response out hout⟩

/-! ## Clients under a rule -/

/-- Service asks the limiter once. -/
theorem serve_drawn (cr : Crypto) (h : Handler) (env : Env) (request : Bytes) (d : Decoded)
    (addr : Addr) (key : Option Key) (receive mono : ℤ) :
    (h.serve cr env request d addr key receive mono).drawn =
        some (h.limiter.key addr (keyIDOf key),
          (h.limiter.allow (h.limiter.key addr (keyIDOf key)) mono).2.1) ∧
      (h.serve cr env request d addr key receive mono).handler.limiter =
        (h.limiter.allow (h.limiter.key addr (keyIDOf key)) mono).1 ∧
      (h.serve cr env request d addr key receive mono).handler.policy = h.policy := by
  unfold Handler.serve
  dsimp only
  by_cases hallowed : (h.limiter.allow (h.limiter.key addr (keyIDOf key)) mono).2.1 = false
  · rw [if_pos hallowed, hallowed]
    split_ifs <;> exact ⟨rfl, rfl, rfl⟩
  · rw [if_neg hallowed, Bool.eq_true_of_not_eq_false hallowed]
    split
    · exact ⟨rfl, rfl, rfl⟩
    · split <;> exact ⟨rfl, rfl, rfl⟩

/-- **A client under a rule that passes the checks is served**, without a draw on the
crypto budget. -/
theorem handle_required {cr : Crypto} {h : Handler} {env : Env} {request : Bytes}
    {client : AddrPort}
    {d : Decoded} {key : Option Key} {receive mono : ℤ} (hreq : Requested h.policy request client d)
    (hadmitted : Admitted cr.aes h.policy request d client.addr.unmap key)
    (hrule : h.policy.requiredKey client.addr.unmap ≠ 0) :
    h.handle cr env request client receive mono =
      h.serve cr env request d client.addr.unmap key receive mono := by
  have hauth : h.authenticate cr.aes env request d client.addr.unmap receive mono =
      .inr (h, key) := by
    unfold Handler.authenticate
    dsimp only
    rw [if_neg (fun hc => hrule hc.1), if_neg (fun hc => hrule hc.1),
      if_neg hrule, hadmitted.verify]
    dsimp only
    rw [if_neg (fun hc => hc.2 (hadmitted.required hrule))]
  unfold Handler.handle
  rw [hreq.decoded]
  dsimp only
  rw [hreq.mode, hreq.notMartian, hreq.permitted, hauth]
  rfl

end Carillon.Server
