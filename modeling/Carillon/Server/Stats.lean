/-
# The counters of the server

Every datagram is counted once, under its outcome and in the address family of its
sender.  The number of kisses and the number of unsynchronised replies are counted
besides, with the outcomes that they belong to.
-/
import Carillon.Ntp.Packet
import Carillon.Server.Address

namespace Carillon.Server

/-- The outcome counters. -/
inductive Outcome where
  | served
  | denied
  | martian
  | rateLimited
  | badAuth
  | badVersion
  | nonClient
  | malformed
  deriving DecidableEq

/-- `counters`, those that `Handle` writes. -/
structure Counters where
  served : ℕ
  unsynced : ℕ
  kod : ℕ
  denied : ℕ
  martian : ℕ
  rateLimited : ℕ
  badAuth : ℕ
  badVersion : ℕ
  nonClient : ℕ
  malformed : ℕ
  clients : ℤ
  modes : Ntp.Mode → ℕ
  versions : UInt8 → ℕ
  lastRequest : ℤ
  lastServed : ℤ

/-- The counter of an outcome. -/
def Counters.get (c : Counters) : Outcome → ℕ
  | .served => c.served
  | .denied => c.denied
  | .martian => c.martian
  | .rateLimited => c.rateLimited
  | .badAuth => c.badAuth
  | .badVersion => c.badVersion
  | .nonClient => c.nonClient
  | .malformed => c.malformed

/-- `Add(1)` on the counter of an outcome. -/
def Counters.add (o : Outcome) (c : Counters) : Counters :=
  match o with
  | .served => { c with served := c.served + 1 }
  | .denied => { c with denied := c.denied + 1 }
  | .martian => { c with martian := c.martian + 1 }
  | .rateLimited => { c with rateLimited := c.rateLimited + 1 }
  | .badAuth => { c with badAuth := c.badAuth + 1 }
  | .badVersion => { c with badVersion := c.badVersion + 1 }
  | .nonClient => { c with nonClient := c.nonClient + 1 }
  | .malformed => { c with malformed := c.malformed + 1 }

/-- `Stats`: one set of counters for each address family. -/
structure Stats where
  v4 : Counters
  v6 : Counters

/-- `Stats.family`. -/
def Stats.family (s : Stats) (addr : Addr) : Counters :=
  if addr.unmap.is4 then s.v4 else s.v6

/-- Write the counters of the family of an address. -/
def Stats.update (s : Stats) (addr : Addr) (f : Counters → Counters) : Stats :=
  if addr.unmap.is4 then { s with v4 := f s.v4 } else { s with v6 := f s.v6 }

/-- What a request that is answered adds to the counters. -/
def Counters.accept (version : UInt8) (receive : ℤ) (c : Counters) : Counters :=
  { c with
    versions := Function.update c.versions version (c.versions version + 1)
    lastRequest := receive }

/-- What its response adds. -/
def Counters.serve (synced : Bool) (receive : ℤ) (c : Counters) : Counters :=
  let c := { c.add .served with lastServed := receive }
  if synced then c else { c with unsynced := c.unsynced + 1 }

/-- `kod.Add(1)`. -/
def Counters.addKod (c : Counters) : Counters :=
  { c with kod := c.kod + 1 }

/-- `clients.Add(delta)`. -/
def Counters.addClients (delta : ℤ) (c : Counters) : Counters :=
  { c with clients := c.clients + delta }

/-! ## Counting -/

/-- A way of counting one outcome.  Kisses are counted with the refusals of the
limiter, unsynchronised replies with those that are served. -/
structure Tallies (f : Counters → Counters) (o : Outcome) : Prop where
  get : ∀ c o', (f c).get o' = c.get o' + if o' = o then 1 else 0
  kod : ∀ c, (f c).kod = c.kod ∨ o = .rateLimited ∧ (f c).kod = c.kod + 1
  unsynced : ∀ c, (f c).unsynced = c.unsynced ∨ o = .served ∧ (f c).unsynced = c.unsynced + 1

/-- A write to the counters that counts nothing. -/
structure Quiet (f : Counters → Counters) : Prop where
  get : ∀ c, (f c).get = c.get
  kod : ∀ c, (f c).kod = c.kod
  unsynced : ∀ c, (f c).unsynced = c.unsynced

/-- The plain count of an outcome. -/
theorem tallies_add (o : Outcome) : Tallies (·.add o) o := by
  constructor
  · intro c o'
    cases o <;> cases o' <;> rfl
  · intro c
    left
    cases o <;> rfl
  · intro c
    left
    cases o <;> rfl

/-- A quiet write may come first. -/
theorem Tallies.after {f g : Counters → Counters} {o : Outcome} (h : Tallies f o) (hg : Quiet g) :
    Tallies (f ∘ g) o := by
  constructor
  · intro c o'
    show (f (g c)).get o' = _
    rw [h.get, hg.get]
  · intro c
    show (f (g c)).kod = _ ∨ _ ∧ (f (g c)).kod = _
    rw [← hg.kod c]
    exact h.kod (g c)
  · intro c
    show (f (g c)).unsynced = _ ∨ _ ∧ (f (g c)).unsynced = _
    rw [← hg.unsynced c]
    exact h.unsynced (g c)

/-- A quiet write may follow. -/
theorem Tallies.before {f g : Counters → Counters} {o : Outcome} (h : Tallies f o) (hg : Quiet g) :
    Tallies (g ∘ f) o := by
  constructor
  · intro c o'
    show (g (f c)).get o' = _
    rw [hg.get, h.get]
  · intro c
    show (g (f c)).kod = _ ∨ _ ∧ (g (f c)).kod = _
    rw [hg.kod]
    exact h.kod c
  · intro c
    show (g (f c)).unsynced = _ ∨ _ ∧ (g (f c)).unsynced = _
    rw [hg.unsynced]
    exact h.unsynced c

/-- The number of clients is no outcome. -/
theorem quiet_addClients (delta : ℤ) : Quiet (·.addClients delta) := by
  refine ⟨?_, fun _ => rfl, fun _ => rfl⟩
  intro c
  funext o
  cases o <;> rfl

/-- Nor is an accepted request. -/
theorem quiet_accept (version : UInt8) (receive : ℤ) : Quiet (·.accept version receive) := by
  refine ⟨?_, fun _ => rfl, fun _ => rfl⟩
  intro c
  funext o
  cases o <;> rfl

/-- The mode is noted beside its outcome. -/
theorem tallies_mode (mode : Ntp.Mode) :
    Tallies (fun c => { c.add .nonClient with
      modes := Function.update c.modes mode (c.modes mode + 1) }) .nonClient := by
  refine ⟨?_, fun _ => .inl rfl, fun _ => .inl rfl⟩
  intro c o
  cases o <;> rfl

/-- A kiss counts as one limited request. -/
theorem tallies_addKod : Tallies (Counters.addKod ∘ (·.add .rateLimited)) .rateLimited := by
  refine ⟨?_, fun _ => .inr ⟨rfl, rfl⟩, fun _ => .inl rfl⟩
  intro c o
  cases o <;> rfl

/-- A reply counts as one served request. -/
theorem tallies_serve (synced : Bool) (receive : ℤ) : Tallies (·.serve synced receive) .served := by
  cases synced with
  | true =>
    refine ⟨?_, fun _ => .inl rfl, fun _ => .inl rfl⟩
    intro c o
    cases o <;> rfl
  | false =>
    refine ⟨?_, fun _ => .inl rfl, fun _ => .inr ⟨rfl, rfl⟩⟩
    intro c o
    cases o <;> rfl

/-- Two writes to one family are one. -/
theorem update_update (s : Stats) (addr : Addr) (f g : Counters → Counters) :
    (s.update addr f).update addr g = s.update addr (g ∘ f) := by
  unfold Stats.update
  split <;> rfl

/-- A write touches one family only. -/
theorem family_update (s : Stats) (addr addr' : Addr) (f : Counters → Counters) :
    (s.update addr f).family addr' =
      if addr'.unmap.is4 = addr.unmap.is4 then f (s.family addr') else s.family addr' := by
  unfold Stats.update Stats.family
  cases addr.unmap.is4 <;> cases addr'.unmap.is4 <;> rfl

end Carillon.Server
