/-
# The addresses of a server

A server's name resolves to a list of addresses, and the poller uses one of them.  When it has
stopped answering, `ensureResolved` looks the name up again and goes on to the next address of
the list, whether or not the lookup succeeds.  After a lookup that succeeds the position is
found anew, as the first place of the present address, so that a list in which an address is
repeated may be walked in a circle that leaves others out (`Rotation`).
-/
import Carillon.Lib.Rotation
import Carillon.Lib.Runs
import Carillon.Server.Address
import Carillon.Source.Poller

namespace Carillon.Source

open Discipline (HasSqrt)
open Server (Addr AddrPort)
open Carillon.Ntp (RefID)

/-- `resolveAfterTimeouts`. -/
def resolveAfterTimeouts : ℕ := 8

/-- `resolve`: a literal address resolves to itself, and a name to all its answers.  No answers
are an error. -/
def resolve (literal : Option Addr) (answers : Option (List Addr)) (port : UInt16) :
    Option (List AddrPort) :=
  match literal, answers with
  | some a, _ => some [⟨a.unmap, port⟩]
  | none, none | none, some [] => none
  | none, some (a :: more) => some ((a :: more).map fun a => ⟨a.unmap, port⟩)

/-- How a lookup of the server's name ends. -/
inductive Lookup where
  /-- The source is being stopped. -/
  | cancelled
  | failed
  | answered (addrs : List AddrPort)

/-- A poller with the addresses it knows of its server.  `addr` is none until there is one
(`haveAddr`). -/
structure Endpoint (K : Type) where
  ntp : Ntp K
  addrs : List AddrPort
  addrIndex : ℕ
  addr : Option AddrPort

variable {K : Type} [Field K]

def Endpoint.new (cfg : NtpConfig) : Endpoint K := ⟨.new cfg default, [], 0, none⟩

section

variable (cfg : NtpConfig) (peerOf : AddrPort → RefID)

/-- `useAddr`: with another address the poller starts over. -/
def Endpoint.useAddr (e : Endpoint K) (addr : AddrPort) : Endpoint K :=
  if e.addr = some addr then e
  else { e with addr := some addr, ntp := (e.ntp.on cfg (.endpoint (peerOf addr))).1 }

/-- `rotateAddr`. -/
def Endpoint.rotateAddr (e : Endpoint K) : Endpoint K :=
  if e.addrs.length < 2 then e
  else
    let e := { e with addrIndex := (e.addrIndex + 1) % e.addrs.length }
    (e.addrs[e.addrIndex]?).elim e (e.useAddr cfg peerOf)

/-- `setAddrs`.  When the address in use is not among the answers, `addrIndex` stays where it
was. -/
def Endpoint.setAddrs (e : Endpoint K) (addrs : List AddrPort) : Endpoint K :=
  let e := { e with addrs := addrs }
  if e.addr.any (· ∈ addrs) then { e with addrIndex := e.addr.elim 0 addrs.idxOf }
  else addrs.head?.elim e (e.useAddr cfg peerOf)

/-- `ensureResolved`, given how the lookup ends if it makes one; the flag says that there is
an address for this poll. -/
def Endpoint.ensureResolved (e : Endpoint K) (lookup : Lookup) : Endpoint K × Bool :=
  if e.addr.isSome ∧ e.ntp.consecutiveTimeouts < resolveAfterTimeouts then (e, true)
  else
    let endpointFailed := e.addr.isSome && resolveAfterTimeouts ≤ e.ntp.consecutiveTimeouts
    match lookup with
    | .cancelled => (e, false)
    | .failed =>
      let e := if endpointFailed then e.rotateAddr cfg peerOf else e
      (e, e.addr.isSome)
    | .answered addrs =>
      let e := e.setAddrs cfg peerOf addrs
      let e := if endpointFailed then e.rotateAddr cfg peerOf else e
      ({ e with ntp := { e.ntp with consecutiveTimeouts := 0 } }, true)

inductive EndpointOp (K : Type) where
  /-- `ensureResolved` is called. -/
  | ensure (lookup : Lookup)
  | poll (op : PollerOp K)

/-- What a poll does to the poller.  The address is changed by `ensureResolved` only. -/
def Ntp.polled [LinearOrder K] [HasSqrt K] (n : Ntp K) : PollerOp K → Option (Ntp K)
  | .hit x reset => some ((n.atHit reset).hit cfg x).1
  | .stale => some n.discardStale
  | .event (.endpoint _) => none
  | .event e => some (n.on cfg e).1

/-- A lookup never succeeds without an answer. -/
def Endpoint.step [LinearOrder K] [HasSqrt K] (e : Endpoint K) : EndpointOp K → Option (Endpoint K)
  | .ensure (.answered []) => none
  | .ensure lookup => some (e.ensureResolved cfg peerOf lookup).1
  | .poll op => (e.ntp.polled cfg op).map fun n => { e with ntp := n }

/-- The address in use has failed: the state that the polls have left the poller in, and
whether the lookup then succeeds. -/
structure Failure (K : Type) where
  ntp : Ntp K
  answered : Bool
  failed : resolveAfterTimeouts ≤ ntp.consecutiveTimeouts

/-- The lookup after a failure, when the answers are those that are known. -/
def Endpoint.fail (e : Endpoint K) (f : Failure K) : Endpoint K :=
  ({ e with ntp := f.ntp }.ensureResolved cfg peerOf
    (if f.answered then .answered e.addrs else .failed)).1

end

/-! ## The address in use -/

variable (cfg : NtpConfig) (peerOf : AddrPort → RefID) {e : Endpoint K} {a : AddrPort}

variable {addrs : List AddrPort}

/-- An address is in use, and it is one of the answers. -/
structure Endpoint.Uses (e : Endpoint K) (a : AddrPort) : Prop where
  addr : e.addr = some a
  mem : a ∈ e.addrs

/-- It is the one at the position, when there are others. -/
structure Endpoint.Held (e : Endpoint K) (a : AddrPort) : Prop extends e.Uses a where
  position : 2 ≤ e.addrs.length → e.addrs[e.addrIndex]? = some a

theorem useAddr_fields (e : Endpoint K) (a : AddrPort) :
    (e.useAddr cfg peerOf a).addrs = e.addrs ∧
      (e.useAddr cfg peerOf a).addrIndex = e.addrIndex ∧
      (e.useAddr cfg peerOf a).addr = some a := by
  unfold Endpoint.useAddr
  split
  case isTrue h => exact ⟨rfl, rfl, h⟩
  case isFalse => exact ⟨rfl, rfl, rfl⟩

theorem rotateAddr_fields (h : 2 ≤ e.addrs.length) :
    (e.rotateAddr cfg peerOf).addrs = e.addrs ∧
      (e.rotateAddr cfg peerOf).addrIndex = (e.addrIndex + 1) % e.addrs.length ∧
      (e.rotateAddr cfg peerOf).addr = e.addrs[(e.addrIndex + 1) % e.addrs.length]? := by
  have hlt : (e.addrIndex + 1) % e.addrs.length < e.addrs.length := Nat.mod_lt _ (by omega)
  unfold Endpoint.rotateAddr
  rw [if_neg (by omega)]
  dsimp only
  rw [List.getElem?_eq_getElem hlt, Option.elim_some]
  exact useAddr_fields cfg peerOf _ _

omit [Field K] in
/-- The address at the position is in use. -/
theorem held_at (hlt : e.addrIndex < e.addrs.length) (haddr : e.addr = e.addrs[e.addrIndex]?) :
    ∃ a, e.Held a := by
  have hget := List.getElem?_eq_getElem hlt
  exact ⟨_, ⟨haddr.trans hget, List.getElem_mem hlt⟩, fun _ => hget⟩

/-- After a rotation the address in use is the one at the position. -/
theorem rotateAddr_held (h : e.Uses a) : ∃ b, (e.rotateAddr cfg peerOf).Held b := by
  rcases Nat.lt_or_ge e.addrs.length 2 with hone | htwo
  · have hsame : e.rotateAddr cfg peerOf = e := if_pos hone
    rw [hsame]
    exact ⟨a, h, fun htwo => absurd htwo (by omega)⟩
  · obtain ⟨haddrs, hindex, haddr⟩ := rotateAddr_fields cfg peerOf htwo
    refine held_at ?_ ?_
    · rw [haddrs, hindex]
      exact Nat.mod_lt _ (by omega)
    · rw [haddrs, hindex, haddr]

theorem setAddrs_of_mem (haddr : e.addr = some a) (hmem : a ∈ addrs) :
    e.setAddrs cfg peerOf addrs = { e with addrs := addrs, addrIndex := addrs.idxOf a } := by
  simp [Endpoint.setAddrs, haddr, hmem]

theorem setAddrs_of_not_mem (first : AddrPort) (more : List AddrPort)
    (h : ∀ a, e.addr = some a → a ∉ first :: more) :
    e.setAddrs cfg peerOf (first :: more) =
      { e with addrs := first :: more }.useAddr cfg peerOf first := by
  have hany : e.addr.any (· ∈ first :: more) = false := by
    cases haddr : e.addr with
    | none => rfl
    | some a => simpa using h a haddr
  simp only [Endpoint.setAddrs, hany]
  rfl

theorem setAddrs_uses (h : addrs ≠ []) :
    ∃ b, (e.setAddrs cfg peerOf addrs).Uses b := by
  obtain ⟨first, more, rfl⟩ := List.exists_cons_of_ne_nil h
  by_cases hmem : ∃ a, e.addr = some a ∧ a ∈ first :: more
  · obtain ⟨a, haddr, hmem⟩ := hmem
    rw [setAddrs_of_mem cfg peerOf haddr hmem]
    exact ⟨a, haddr, hmem⟩
  · push Not at hmem
    rw [setAddrs_of_not_mem cfg peerOf first more hmem]
    obtain ⟨haddrs, -, haddr⟩ := useAddr_fields cfg peerOf
      { e with addrs := first :: more } first
    exact ⟨first, haddr, haddrs ▸ List.mem_cons_self⟩

/-- After a failure the name is looked up. -/
theorem ensureResolved_failed (haddr : e.addr = some a)
    (h : resolveAfterTimeouts ≤ e.ntp.consecutiveTimeouts) :
    (e.ensureResolved cfg peerOf .failed).1 = e.rotateAddr cfg peerOf := by
  simp [Endpoint.ensureResolved, haddr, h, Nat.not_lt.mpr h]

theorem ensureResolved_answered (addrs : List AddrPort) (haddr : e.addr = some a)
    (h : resolveAfterTimeouts ≤ e.ntp.consecutiveTimeouts) :
    ∃ n, (e.ensureResolved cfg peerOf (.answered addrs)).1 =
      { (e.setAddrs cfg peerOf addrs).rotateAddr cfg peerOf with ntp := n } := by
  simp [Endpoint.ensureResolved, haddr, h, Nat.not_lt.mpr h]

/-- What a run keeps: an address is in use as soon as there are answers. -/
def Endpoint.Settled (e : Endpoint K) : Prop :=
  (e.addrs = [] ∧ e.addr = none ∧ e.addrIndex = 0) ∨ ∃ a, e.Held a

omit [Field K] in
/-- The state of the poller does not matter to the address. -/
theorem Endpoint.Held.with_ntp (h : e.Held a) (n : Ntp K) : { e with ntp := n }.Held a :=
  ⟨⟨h.addr, h.mem⟩, h.position⟩

theorem ensureResolved_settled (h : e.Settled) {lookup : Lookup} (hlookup : lookup ≠ .answered []) :
    (e.ensureResolved cfg peerOf lookup).1.Settled := by
  by_cases hfresh : e.addr.isSome ∧ e.ntp.consecutiveTimeouts < resolveAfterTimeouts
  · have hsame : e.ensureResolved cfg peerOf lookup = (e, true) := if_pos hfresh
    rwa [hsame]
  rcases h with ⟨hnil, haddr, hindex⟩ | ⟨a, hheld⟩
  · -- the first lookups of the source
    cases lookup with
    | cancelled => simpa [Endpoint.ensureResolved, haddr] using .inl ⟨hnil, haddr, hindex⟩
    | failed => simpa [Endpoint.ensureResolved, haddr] using .inl ⟨hnil, haddr, hindex⟩
    | answered addrs =>
      obtain ⟨first, more, rfl⟩ := List.exists_cons_of_ne_nil fun hnil => hlookup (hnil ▸ rfl)
      obtain ⟨haddrs', hindex', haddr'⟩ := useAddr_fields cfg peerOf
        { e with addrs := first :: more } first
      have hset := setAddrs_of_not_mem cfg peerOf (e := e) first more (by simp [haddr])
      have hheld : ({ e with addrs := first :: more }.useAddr cfg peerOf first).Held first := by
        refine ⟨⟨haddr', haddrs' ▸ List.mem_cons_self⟩, fun _ => ?_⟩
        rw [haddrs', hindex', hindex]
        rfl
      refine .inr ⟨first, ?_⟩
      simpa [Endpoint.ensureResolved, haddr, hset] using hheld.with_ntp _
  · have hfailed : resolveAfterTimeouts ≤ e.ntp.consecutiveTimeouts := by
      simpa [hheld.addr] using hfresh
    cases lookup with
    | cancelled =>
      have hsame : e.ensureResolved cfg peerOf .cancelled = (e, false) := if_neg hfresh
      rw [hsame]
      exact .inr ⟨a, hheld⟩
    | failed =>
      rw [ensureResolved_failed cfg peerOf hheld.addr hfailed]
      exact .inr (rotateAddr_held cfg peerOf hheld.toUses)
    | answered addrs =>
      obtain ⟨n, hn⟩ := ensureResolved_answered cfg peerOf addrs hheld.addr hfailed
      obtain ⟨b, hb⟩ := setAddrs_uses cfg peerOf (e := e) fun hnil => hlookup (hnil ▸ rfl)
      obtain ⟨c, hc⟩ := rotateAddr_held cfg peerOf hb
      rw [hn]
      exact .inr ⟨c, hc.with_ntp n⟩

/-! ## Going round the answers -/

/-- A failure moves the position as a walk round the answers does. -/
theorem fail_fields (h : e.Held a) (htwo : 2 ≤ e.addrs.length) (f : Failure K) :
    (e.fail cfg peerOf f).addrs = e.addrs ∧
      (e.fail cfg peerOf f).addrIndex = Rotation.next e.addrs e.addrIndex f.answered ∧
      (e.fail cfg peerOf f).addr = e.addrs[Rotation.next e.addrs e.addrIndex f.answered]? := by
  obtain ⟨n, answered, hfailed⟩ := f
  cases answered with
  | false =>
    have hfail : e.fail cfg peerOf ⟨n, false, hfailed⟩ =
        { e with ntp := n }.rotateAddr cfg peerOf :=
      ensureResolved_failed cfg peerOf (e := { e with ntp := n }) h.addr hfailed
    rw [hfail]
    exact rotateAddr_fields cfg peerOf (e := { e with ntp := n }) htwo
  | true =>
    -- the position is looked up before it moves on
    have hset := setAddrs_of_mem cfg peerOf (e := { e with ntp := n }) h.addr h.mem
    obtain ⟨m, hm⟩ := ensureResolved_answered cfg peerOf (e := { e with ntp := n }) e.addrs
      h.addr hfailed
    rw [hset] at hm
    have hfail : e.fail cfg peerOf ⟨n, true, hfailed⟩ = _ := hm
    rw [hfail, Rotation.next, if_pos rfl, Rotation.first_eq (h.position htwo)]
    exact rotateAddr_fields cfg peerOf
      (e := { e with ntp := n, addrs := e.addrs, addrIndex := e.addrs.idxOf a }) htwo

/-- The address in use after some failures. -/
theorem addr_foldl_fail (h : e.Held a) (htwo : 2 ≤ e.addrs.length) (fs : List (Failure K)) :
    (fs.foldl (Endpoint.fail cfg peerOf) e).addr =
      e.addrs[Rotation.walk e.addrs e.addrIndex (fs.map Failure.answered)]? := by
  induction fs generalizing e a with
  | nil => exact h.addr.trans (h.position htwo).symm
  | cons f fs ih =>
    obtain ⟨haddrs, hindex, haddr⟩ := fail_fields cfg peerOf h htwo f
    obtain ⟨b, hheld⟩ : ∃ b, (e.fail cfg peerOf f).Held b := by
      refine held_at ?_ ?_
      · rw [haddrs, hindex]
        exact Nat.mod_lt _ (by omega)
      · rw [haddrs, hindex, haddr]
    have hrest := ih hheld (haddrs ▸ htwo)
    rwa [haddrs, hindex] at hrest

section

variable [LinearOrder K] [HasSqrt K]

theorem step_settled {t : Endpoint K} {op : EndpointOp K} (h : e.Settled)
    (hstep : e.step cfg peerOf op = some t) : t.Settled := by
  cases op with
  | ensure lookup =>
    have hlookup : lookup ≠ .answered [] := by
      rintro rfl
      cases hstep
    have ht : (e.ensureResolved cfg peerOf lookup).1 = t := by
      cases lookup with
      | cancelled | failed => exact Option.some.inj hstep
      | answered addrs =>
        obtain ⟨first, more, rfl⟩ := List.exists_cons_of_ne_nil fun hnil => hlookup (hnil ▸ rfl)
        exact Option.some.inj hstep
    exact ht ▸ ensureResolved_settled cfg peerOf h hlookup
  | poll op =>
    obtain ⟨n, -, rfl⟩ := Option.map_eq_some_iff.mp hstep
    rcases h with h | ⟨a, h⟩
    · exact .inl h
    · exact .inr ⟨a, h.with_ntp n⟩

theorem run_settled {ops : List (EndpointOp K)}
    (hrun : Runs.run (Endpoint.step cfg peerOf) (.new cfg) ops = some e) : e.Settled :=
  Runs.run_invariant (C := fun _ _ => True) (I := Endpoint.Settled)
    (fun _ _ _ h _ hstep => step_settled cfg peerOf h hstep) (.inl ⟨rfl, rfl, rfl⟩)
    (Runs.along_of_forall (fun _ _ => trivial) _ _) hrun

omit [LinearOrder K] [HasSqrt K] in
theorem on_timeout_consecutiveTimeouts (n : Ntp K) :
    (n.on cfg .timeout).1.consecutiveTimeouts = n.consecutiveTimeouts + 1 := by
  simp only [Ntp.on, Ntp.miss]
  split <;> rfl

/-- Timeouts are counted. -/
theorem run_timeouts (e : Endpoint K) (k : ℕ) :
    ∃ n, Runs.run (Endpoint.step cfg peerOf) e (List.replicate k (.poll (.event .timeout))) =
        some { e with ntp := n } ∧
      n.consecutiveTimeouts = e.ntp.consecutiveTimeouts + k := by
  induction k generalizing e with
  | zero => exact ⟨e.ntp, rfl, rfl⟩
  | succ k ih =>
    obtain ⟨n, hrun, hn⟩ := ih { e with ntp := (e.ntp.on cfg .timeout).1 }
    refine ⟨n, Runs.run_cons_eq_some.mpr ⟨_, rfl, hrun⟩, ?_⟩
    rw [hn, on_timeout_consecutiveTimeouts]
    omega

/-- Every position is reached, by lookups that fail. -/
theorem exists_run_at (htwo : 2 ≤ addrs.length) (i : ℕ) (hi : i < addrs.length) :
    ∃ ops, ∃ e : Endpoint K, Runs.run (Endpoint.step cfg peerOf) (.new cfg) ops = some e ∧
      e.addrs = addrs ∧ e.addrIndex = i := by
  obtain ⟨first, more, rfl⟩ := List.exists_cons_of_length_pos (by omega : 0 < addrs.length)
  induction i with
  | zero =>
    obtain ⟨haddrs, hindex, -⟩ := useAddr_fields cfg peerOf
      { (Endpoint.new cfg : Endpoint K) with addrs := first :: more } first
    exact ⟨[.ensure (.answered (first :: more))], _, rfl, haddrs, hindex⟩
  | succ i ih =>
    obtain ⟨ops, e, hrun, haddrs, hindex⟩ := ih (by omega)
    obtain ⟨n, htimeouts, hn⟩ := run_timeouts cfg peerOf e resolveAfterTimeouts
    obtain ⟨a, hheld⟩ := (run_settled cfg peerOf hrun).resolve_left
      fun hnone => List.cons_ne_nil _ _ (haddrs.symm.trans hnone.1)
    have hfailed := ensureResolved_failed cfg peerOf (e := { e with ntp := n }) hheld.addr
      (hn ▸ Nat.le_add_left _ _)
    obtain ⟨haddrs', hindex', -⟩ := rotateAddr_fields cfg peerOf (e := { e with ntp := n })
      (haddrs ▸ htwo)
    refine ⟨ops ++ (List.replicate resolveAfterTimeouts (.poll (.event .timeout)) ++
      [.ensure .failed]), { e with ntp := n }.rotateAddr cfg peerOf, ?_, haddrs'.trans haddrs, ?_⟩
    · refine Runs.run_append.mpr ⟨e, hrun, Runs.run_append.mpr ⟨_, htimeouts, ?_⟩⟩
      exact congrArg some hfailed
    · rw [hindex', haddrs, hindex]
      exact Nat.mod_eq_of_lt hi

/-- **Every answer is tried in turn exactly when the answers are spread.**  In any state of the
poller, whatever its lookups have answered before, as many failures as there are answers
bring each of them into use, however the lookups after them end. -/
theorem rotation_covers_iff (addrs : List AddrPort) :
    (∀ (ops : List (EndpointOp K)) (e : Endpoint K),
      Runs.run (Endpoint.step cfg peerOf) (.new cfg) ops = some e → e.addrs = addrs →
      ∀ fs : List (Failure K), fs.length = addrs.length → ∀ a ∈ addrs,
        ∃ k ≤ addrs.length, ((fs.take k).foldl (Endpoint.fail cfg peerOf) e).addr = some a) ↔
      Rotation.Spread addrs := by
  have hheld : ∀ {ops : List (EndpointOp K)} {e : Endpoint K} {a : AddrPort},
      Runs.run (Endpoint.step cfg peerOf) (.new cfg) ops = some e → e.addrs = addrs → a ∈ addrs →
      ∃ b, e.Held b := fun hrun haddrs ha =>
    (run_settled cfg peerOf hrun).resolve_left
      fun hnone => List.ne_nil_of_mem ha (haddrs.symm.trans hnone.1)
  rcases Nat.lt_or_ge addrs.length 2 with hone | htwo
  · -- a single answer is the one in use
    have hsingle : ∀ a ∈ addrs, addrs = [a] := by
      intro a ha
      obtain ⟨b, hb⟩ := List.length_eq_one_iff.mp
        (le_antisymm (Nat.lt_succ_iff.mp hone) (List.length_pos_of_mem ha))
      rw [hb] at ha ⊢
      rw [List.mem_singleton.mp ha]
    refine iff_of_true (fun ops e hrun haddrs fs _ a ha => ⟨0, Nat.zero_le _, ?_⟩)
      (.of_nodup (List.nodup_iff_count_le_one.mpr fun a =>
        le_trans List.count_le_length (Nat.lt_succ_iff.mp hone)))
    obtain ⟨b, hb⟩ := hheld hrun haddrs ha
    have hmem : b ∈ [a] := hsingle a ha ▸ haddrs ▸ hb.mem
    exact List.mem_singleton.mp hmem ▸ hb.addr
  · rw [← Rotation.covers_iff]
    constructor
    · intro h a ha i hi
      obtain ⟨ops, e, hrun, haddrs, hindex⟩ := exists_run_at (K := K) cfg peerOf htwo i hi
      obtain ⟨b, hb⟩ := hheld hrun haddrs ha
      rw [Rotation.covers_iff_walk]
      intro choices hlen
      let failure (answered : Bool) : Failure K :=
        ⟨{ Ntp.new cfg default with consecutiveTimeouts := resolveAfterTimeouts }, answered,
          le_refl _⟩
      obtain ⟨k, hk, hat⟩ := h ops e hrun haddrs (choices.map failure) (by simpa using hlen) a ha
      rw [addr_foldl_fail cfg peerOf hb (haddrs ▸ htwo), haddrs, hindex, ← List.map_take,
        List.map_map] at hat
      have hid : Failure.answered ∘ failure = id := rfl
      rw [hid, List.map_id] at hat
      exact ⟨k, hk, hat⟩
    · intro h ops e hrun haddrs fs hlen a ha
      obtain ⟨b, hb⟩ := hheld hrun haddrs ha
      have hlt : e.addrIndex < addrs.length :=
        haddrs ▸ (List.getElem?_eq_some_iff.mp (hb.position (haddrs ▸ htwo))).1
      obtain ⟨k, hk, hat⟩ := Rotation.covers_iff_walk.mp (h a ha _ hlt)
        (fs.map Failure.answered) (by simpa using hlen)
      refine ⟨k, hk, ?_⟩
      rw [addr_foldl_fail cfg peerOf hb (haddrs ▸ htwo), haddrs, List.map_take]
      exact hat

end

/-- A host with an IPv4 address, which is also given as an IPv4-mapped one, and another. -/
def mappedAnswers : List Addr :=
  [.v4 0xc0000201, .v6 0xffffc0000201 "", .v4 0xc0000202]

/-- A failure after the timeouts it takes, with a lookup that succeeds. -/
def plainFailure : Failure ℚ :=
  ⟨{ Ntp.new pollerConfig default with consecutiveTimeouts := resolveAfterTimeouts }, true,
    le_refl _⟩

/-- The mapped address is the first one again, and the other is never reached from there. -/
theorem rotation_misses_behind_mapped :
    ∃ addrs, resolve none (some mappedAnswers) 123 = some addrs ∧
      ∃ e : Endpoint ℚ,
        Runs.run (Endpoint.step pollerConfig fun _ => default) (.new pollerConfig)
            [.ensure (.answered addrs)] = some e ∧
          e.addrs = addrs ∧ (⟨.v4 0xc0000202, 123⟩ : AddrPort) ∈ addrs ∧
          ∀ k ≤ addrs.length, ((List.replicate k plainFailure).foldl
            (Endpoint.fail pollerConfig fun _ => default) e).addr ≠ some ⟨.v4 0xc0000202, 123⟩ :=
  ⟨_, rfl, _, rfl, by decide +kernel, by decide +kernel, by decide +kernel⟩

end Carillon.Source
