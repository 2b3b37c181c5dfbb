/-
# Distribution between daemons

Daemons fetch their leap tables from a publisher or from one another, in any topology:
a daemon with a seed, a relay that fetches from it, a leaf behind several relays, or
daemons that fetch from each other in a circle.  A fetch brings what its source had
active at some time before; sources crash, restart and fall behind.

* `Net` is the network with two histories: what the publisher has issued, and what each
  daemon's engine has shown to its clients.
* Every table that is active anywhere is one of the publisher's, and two daemons agree
  on all leap seconds up to the publication that superseded the older of their tables.
-/
import Mathlib.Tactic
import Carillon.Leap.Rollback

namespace Carillon.Leap

/-! ## The network -/

/-- The lists that the publisher has issued, the oldest first, each with the instant of its
publication; the daemons; and the objects that each daemon's engine has had active. -/
structure Net (ι : Type) where
  issued : List (Object × ℤ)
  nodes : ι → World
  shown : ι → List Object

/-- What happens in the network. -/
inductive NetEvent (ι : Type) where
  /-- The publisher issues a list. -/
  | publish (o : Object) (t : ℤ)
  /-- A job of the daemon `i` brings an object, of the publisher or of the daemon `source`. -/
  | deliver (i : ι) (source : Option ι) (o : Object)
  /-- Any other step of a daemon, or its crash and restart. -/
  | node (i : ι) (e : Event)

def Event.delivers : Event → Bool
  | .step (.result (.object _)) => true
  | _ => false

section

variable {ι : Type} [DecidableEq ι] (sha256 : Bytes → Digest)
  (accepts : Option Object → Object → ℤ → Bool) (modes : ι → Mode)

/-- A network in which every daemon has just been started. -/
def Net.start (issued : List (Object × ℤ)) (s : ι → State) : Net ι where
  issued := issued
  nodes i := World.start (s i)
  shown i := (s i).active.toList.map (·.object)

/-- The publisher revises its own lists by the rules that its clients check. -/
def Revision (issued : List (Object × ℤ)) (o : Object) (t : ℤ) : Prop :=
  ∀ last ∈ issued.getLast?, checkUpdate sha256 (some last.1) (some o) t = .ok () ∧ last.2 ≤ t

instance (issued : List (Object × ℤ)) (o : Object) (t : ℤ) :
    Decidable (Revision sha256 issued o t) :=
  inferInstanceAs (Decidable (∀ last ∈ issued.getLast?, _))

/-- A step of one daemon. -/
def Net.act (n : Net ι) (i : ι) (e : Event) : Option (Net ι) :=
  (daemonStep sha256 accepts (modes i) (n.nodes i) e).map fun w =>
    { n with
      nodes := Function.update n.nodes i w
      shown := Function.update n.shown i (w.eng.active.toList.map (·.object) ++ n.shown i) }

/-- What a source can bring: the publisher any of its lists, a daemon what it has shown. -/
def Net.offered (n : Net ι) : Option ι → List Object
  | none => n.issued.map (·.1)
  | some j => n.shown j

/-- One event of the network. -/
def Net.step (n : Net ι) : NetEvent ι → Option (Net ι)
  | .publish o t =>
    if Revision sha256 n.issued o t then some { n with issued := n.issued ++ [(o, t)] } else none
  | .deliver i source o =>
    if o ∈ n.offered source then n.act sha256 accepts modes i
      (.step (.result (.object o))) else none
  | .node i e => if e.delivers then none else n.act sha256 accepts modes i e

end

/-! ## Provenance -/

section

variable {ι : Type} [DecidableEq ι] {sha256 : Bytes → Digest}
  {accepts : Option Object → Object → ℤ → Bool} {modes : ι → Mode} {n n' : Net ι}

/-- The publisher has issued the object. -/
def Net.Issued (n : Net ι) (o : Object) : Prop := o ∈ n.issued.map (·.1)

/-- The lists are revisions of one another, at times that do not go back. -/
def Chained (sha256 : Bytes → Digest) (issued : List (Object × ℤ)) : Prop :=
  ∀ k p p', issued[k]? = some p → issued[k + 1]? = some p' →
    checkUpdate sha256 (some p.1) (some p'.1) p'.2 = .ok () ∧ p.2 ≤ p'.2

/-- Every object anywhere is the publisher's. -/
structure Net.Sourced (sha256 : Bytes → Digest) (n : Net ι) : Prop where
  chained : Chained sha256 n.issued
  safe : ∀ i, (n.nodes i).Safe
  drawn : ∀ i, (n.nodes i).Drawn n.Issued
  shown : ∀ i, ∀ o ∈ n.shown i, n.Issued o

/-- A daemon whose objects are of `F` has objects of anything larger. -/
theorem World.Drawn.mono {w : World} {F G : Object → Prop} (h : w.Drawn F) (hFG : ∀ o, F o → G o) :
    w.Drawn G :=
  ⟨fun r hr => hFG _ (h.state r hr), fun r hr => hFG _ (h.disk r hr),
    fun o ho => hFG _ (h.fetched o ho)⟩

/-- The engine's table is one that the updater holds. -/
theorem World.Drawn.active {w : World} {F : Object → Prop} {a : Record} (h : w.Drawn F)
    (hsafe : w.Safe) (ha : w.eng.active = some a) : F a.object := by
  rcases hsafe.engine with heq | ⟨-, r, hr, hcom⟩
  · exact h.state a (.inl (heq ▸ ha))
  · cases hr.symm.trans ha
    exact h.state a (.inr hcom.1)

/-- A revision of the newest object extends the chain. -/
theorem chained_append {issued : List (Object × ℤ)} {o : Object} {t : ℤ}
    (h : Chained sha256 issued) (hrev : Revision sha256 issued o t) :
    Chained sha256 (issued ++ [(o, t)]) := by
  intro k p p' hp hp'
  have hk : k + 1 < (issued ++ [(o, t)]).length := (List.getElem?_eq_some_iff.mp hp').1
  rw [List.length_append, List.length_singleton] at hk
  rw [List.getElem?_append_left (by omega)] at hp
  rcases Nat.lt_or_ge (k + 1) issued.length with hlt | hge
  · rw [List.getElem?_append_left hlt] at hp'
    exact h k p p' hp hp'
  · -- the new list comes after the last one
    have hlast : k + 1 = issued.length := by omega
    rw [hlast, List.getElem?_append_right le_rfl, Nat.sub_self] at hp'
    cases hp'
    refine hrev p ?_
    rw [List.getLast?_eq_getElem?, ← hlast]
    exact hp

/-- What a step of the daemon `i` leaves: the publisher and the other daemons as they were, and
its own history longer by its engine's table. -/
structure Net.Acted (n n' : Net ι) (i : ι) (w : World) : Prop where
  issued : n'.issued = n.issued
  node : n'.nodes i = w
  others : ∀ j, j ≠ i → n'.nodes j = n.nodes j
  shown : n'.shown i = w.eng.active.toList.map (·.object) ++ n.shown i
  shown_others : ∀ j, j ≠ i → n'.shown j = n.shown j

variable (modes) in
/-- A step of a daemon is one of the network. -/
theorem act_of_step {i : ι} {e : Event} {w : World}
    (h : daemonStep sha256 accepts (modes i) (n.nodes i) e = some w) :
    ∃ n', n.act sha256 accepts modes i e = some n' ∧ n.Acted n' i w := by
  rw [Net.act, h]
  exact ⟨_, rfl, rfl, Function.update_self .., fun j hj => Function.update_of_ne hj ..,
    Function.update_self .., fun j hj => Function.update_of_ne hj ..⟩

/-- A step of the network at a node is one of its daemon. -/
theorem act_eq_some {i : ι} {e : Event} (hs : n.act sha256 accepts modes i e = some n') :
    ∃ w, daemonStep sha256 accepts (modes i) (n.nodes i) e = some w ∧ n.Acted n' i w := by
  obtain ⟨w, hw, -⟩ := Option.map_eq_some_iff.mp hs
  obtain ⟨n₁, hn₁, hact⟩ := act_of_step modes hw
  cases hs.symm.trans hn₁
  exact ⟨w, hw, hact⟩

/-- What a node does leaves all objects issued ones. -/
theorem sourced_act {i : ι} {e : Event} (h : n.Sourced sha256)
    (he : ∀ o, e = .step (.result (.object o)) → n.Issued o)
    (hs : n.act sha256 accepts modes i e = some n') : n'.Sourced sha256 := by
  obtain ⟨w, hw, hact⟩ := act_eq_some hs
  have hsafe : w.Safe := safe_daemonStep (h.safe i) hw
  have hdrawn : w.Drawn n.Issued := drawn_daemonStep (h.safe i) (h.drawn i) he hw
  have hissued : n'.Issued = n.Issued := by
    unfold Net.Issued
    rw [hact.issued]
  refine ⟨hact.issued ▸ h.chained, fun j => ?_, fun j => ?_, fun j o ho => ?_⟩
  · rcases eq_or_ne j i with rfl | hj
    · exact hact.node ▸ hsafe
    · exact hact.others j hj ▸ h.safe j
  · rw [hissued]
    rcases eq_or_ne j i with rfl | hj
    · exact hact.node ▸ hdrawn
    · exact hact.others j hj ▸ h.drawn j
  · rw [hissued]
    rcases eq_or_ne j i with rfl | hj
    · rw [hact.shown, List.mem_append, List.mem_map] at ho
      rcases ho with ⟨a, ha, rfl⟩ | ho
      · exact hdrawn.active hsafe (Option.mem_toList.mp ha)
      · exact h.shown j o ho
    · rw [hact.shown_others j hj] at ho
      exact h.shown j o ho

/-- So does every event of the network. -/
theorem sourced_step {e : NetEvent ι} (h : n.Sourced sha256)
    (hs : n.step sha256 accepts modes e = some n') : n'.Sourced sha256 := by
  cases e with
  | publish o t =>
    simp only [Net.step] at hs
    split_ifs at hs with hrev
    cases hs
    have hmono : ∀ o', n.Issued o' → Net.Issued { n with issued := n.issued ++ [(o, t)] } o' :=
      fun o' ho' => by rw [Net.Issued, List.map_append]; exact List.mem_append_left _ ho'
    exact ⟨chained_append h.chained hrev, h.safe, fun i => (h.drawn i).mono hmono,
      fun i o' ho' => hmono o' (h.shown i o' ho')⟩
  | deliver i source o =>
    simp only [Net.step] at hs
    split_ifs at hs with hoff
    refine sourced_act h ?_ hs
    rintro o' ⟨⟩
    cases source with
    | none => exact hoff
    | some j => exact h.shown j o hoff
  | node i e =>
    simp only [Net.step] at hs
    split_ifs at hs with hd
    refine sourced_act h ?_ hs
    rintro o rfl
    exact absurd rfl hd

omit [DecidableEq ι] in
/-- A network starts with objects that were issued. -/
theorem sourced_start {issued : List (Object × ℤ)} {s : ι → State}
    (hchain : Chained sha256 issued)
    (hs : ∀ i r, (s i).Holds r → r.object ∈ issued.map (·.1)) :
    (Net.start issued s).Sourced sha256 := by
  refine ⟨hchain, fun i => safe_start (s i), fun i => drawn_start (hs i), fun i o ho => ?_⟩
  obtain ⟨a, ha, rfl⟩ := List.mem_map.mp ho
  exact hs i a (.inl (Option.mem_toList.mp ha))

/-- Along the publisher's lists, a later one keeps what an earlier one covered when it was
superseded. -/
theorem Chained.keeps {issued : List (Object × ℤ)} (h : Chained sha256 issued)
    (hash : ∀ o ∈ issued.map (·.1), ∀ o' ∈ issued.map (·.1),
      sha256 o.data = sha256 o'.data → o.data = o'.data)
    {x y : ℕ} {a b p : Object × ℤ} (ha : issued[x]? = some a) (hb : issued[y]? = some b)
    (hp : issued[x + 1]? = some p) (hxy : x < y) :
    b.1.table.Keeps a.1.table (min p.2 (a.1.table.expiry - 1)) := by
  let f : ℕ → Object × ℤ := fun k => issued[k]?.getD a
  have hlen : y < issued.length := (List.getElem?_eq_some_iff.mp hb).1
  have hf : ∀ k ≤ y, issued[k]? = some (f k) := by
    intro k hk
    simp [f, List.getElem?_eq_getElem (show k < issued.length by omega)]
  have hmem : ∀ k ≤ y, (f k).1 ∈ issued.map (·.1) := fun k hk =>
    List.mem_map_of_mem (List.mem_of_getElem? (hf k hk))
  have hstep : ∀ k < y, checkUpdate sha256 (some (f k).1) (some (f (k + 1)).1) (f (k + 1)).2 =
      .ok () ∧ (f k).2 ≤ (f (k + 1)).2 := fun k hk => h k _ _ (hf k (by omega)) (hf (k + 1) hk)
  have htimes : ∀ i j, 1 ≤ i → i ≤ j → j ≤ y → (f i).2 ≤ (f j).2 := by
    intro i j _ hij hj
    induction j, hij using Nat.le_induction with
    | base => exact le_rfl
    | succ j _ ih => exact (ih (by omega)).trans (hstep j (by omega)).2
  have hkeeps := keeps_of_chain (o := fun k => (f k).1) (t := fun k => (f k).2)
    (fun i hi j hj => hash _ (hmem i hi) _ (hmem j hj)) htimes (fun k hk => (hstep k hk).1)
    hxy le_rfl
  have hfx : f x = a := Option.some.inj ((hf x hxy.le).symm.trans ha)
  have hfy : f y = b := Option.some.inj ((hf y le_rfl).symm.trans hb)
  have hfp : f (x + 1) = p := Option.some.inj ((hf (x + 1) hxy).symm.trans hp)
  rw [hfx, hfy, hfp, Table.cutoff_eq_min] at hkeeps
  exact hkeeps

end

/-- **Agreement.**  The publisher revises its own lists by the rules that its clients check
(`Chained`, and `Revision` at each publication), the daemons start on lists that it had issued, and
the digest identifies its files.  Then, however publications, fetches from the publisher or
between daemons, failed saves, crashes and restarts interleave, the table that is active at any
daemon is one that the publisher has issued; and of two daemons' tables the later one keeps the
past of the earlier up to the publication that superseded it, or up to its expiry. -/
theorem network_agreement {ι : Type} [DecidableEq ι] (sha256 : Bytes → Digest)
    (accepts : Option Object → Object → ℤ → Bool) (modes : ι → Mode) (issued : List (Object × ℤ))
    (s : ι → State) (es : List (NetEvent ι)) (n : Net ι) (hchain : Chained sha256 issued)
    (hstart : ∀ i r, (s i).Holds r → r.object ∈ issued.map (·.1))
    (hrun : Runs.run (Net.step sha256 accepts modes) (Net.start issued s) es = some n)
    (hash : ∀ o ∈ n.issued.map (·.1), ∀ o' ∈ n.issued.map (·.1),
      sha256 o.data = sha256 o'.data → o.data = o'.data)
    (i j : ι) (a b : Record) (ha : (n.nodes i).eng.active = some a)
    (hb : (n.nodes j).eng.active = some b) :
    ∃ (x y : ℕ) (t u : ℤ), n.issued[x]? = some (a.object, t) ∧ n.issued[y]? = some (b.object, u) ∧
      (∀ p, x < y → n.issued[x + 1]? = some p →
        b.object.table.Keeps a.object.table (min p.2 (a.object.table.expiry - 1))) ∧
      (∀ p, y < x → n.issued[y + 1]? = some p →
        a.object.table.Keeps b.object.table (min p.2 (b.object.table.expiry - 1))) := by
  have h : n.Sourced sha256 := Runs.run_invariant (C := fun _ _ => True)
    (fun _ _ _ hs _ hstep => sourced_step hs hstep) (sourced_start hchain hstart)
    (Runs.along_of_forall (fun _ _ => trivial) _ _) hrun
  have hfind : ∀ k r, (n.nodes k).eng.active = some r →
      ∃ (x : ℕ) (t : ℤ), n.issued[x]? = some (r.object, t) := by
    intro k r hr
    obtain ⟨⟨o, t⟩, hmem, rfl⟩ := List.mem_map.mp ((h.drawn k).active (h.safe k) hr)
    obtain ⟨x, hx⟩ := List.mem_iff_getElem?.mp hmem
    exact ⟨x, t, hx⟩
  obtain ⟨x, t, hx⟩ := hfind i a ha
  obtain ⟨y, u, hy⟩ := hfind j b hb
  exact ⟨x, y, t, u, hx, hy, fun p hxy hp => h.chained.keeps hash hx hy hp hxy,
    fun p hyx hp => h.chained.keeps hash hy hx hp hyx⟩

/-- A daemon and a relay behind it: the first one has the operator's file, the other fetches from
the first. -/
def relayModes : Bool → Mode
  | false => .manual []
  | true => .peers [⟨[], 1⟩]

/-- The events of one daemon from the head of its loop to the activation of an object. -/
def fetchAt (i : Bool) (source : Option Bool) (o : Object) (v : View) : List (NetEvent Bool) :=
  (([.view v, .save .ok, .skip, .job 0] : List Label).map fun l => .node i (.step l)) ++
    .deliver i source o :: (installation v).map fun l => .node i (.step l)

/-- The first list passes to both; then the first daemon takes the second list, and the relay does
not. -/
def relayRun : List (NetEvent Bool) :=
  let v : View := ⟨ntpTime 2285000000, true, ntpTime 2285000000, 0⟩
  let v' : View := ⟨ntpTime 2288000000, true, ntpTime 2288000000, 0⟩
  fetchAt false none list1972 v ++ fetchAt true (some false) list1972 v ++
    [.publish list1972b (ntpTime 2288000000)] ++ fetchAt false none list1972b v'

/-- The two daemons of that run agree on the leap second that had happened when the second list
was published. -/
theorem network_agreement_relay :
    ∃ n : Net Bool, Runs.run (Net.step firstBytes (engineAccepts firstBytes) relayModes)
        (Net.start [(list1972, ntpTime 2280000000)] fun _ => .empty) relayRun = some n ∧
      (∃ a, (n.nodes false).eng.active = some a ∧ a.object = list1972b) ∧
      (∃ b, (n.nodes true).eng.active = some b ∧ b.object = list1972) ∧
      list1972b.table.Keeps list1972.table (ntpTime 2288000000) := by
  have h : (Runs.run (Net.step firstBytes (engineAccepts firstBytes) relayModes)
      (Net.start [(list1972, ntpTime 2280000000)] fun _ => .empty) relayRun).map
        (fun n => (n.issued, (n.nodes false).eng.active.map (·.object),
          (n.nodes true).eng.active.map (·.object))) =
      some ([(list1972, ntpTime 2280000000), (list1972b, ntpTime 2288000000)], some list1972b,
        some list1972) := by decide +kernel
  obtain ⟨n, hn, hpair⟩ := Option.map_eq_some_iff.mp h
  simp only [Prod.mk.injEq, Option.map_eq_some_iff] at hpair
  obtain ⟨hissued, ⟨a, ha, hao⟩, b, hb, hbo⟩ := hpair
  refine ⟨n, hn, ⟨a, ha, hao⟩, ⟨b, hb, hbo⟩, ?_⟩
  obtain ⟨x, y, t, u, hx, hy, hk, -⟩ := network_agreement firstBytes (engineAccepts firstBytes)
    relayModes [(list1972, ntpTime 2280000000)] (fun _ => .empty) relayRun n
    (by rintro (_ | k) p p' hp hp' <;> cases hp') (by rintro i r (hr | hr) <;> cases hr) hn
    (by rw [hissued]; decide +kernel) true false b a hb ha
  rw [hissued, hbo] at hx
  rw [hissued, hao] at hy
  have hne : list1972 ≠ list1972b := by decide +kernel
  obtain rfl : x = 0 := by rcases x with _ | _ | x <;> simp [hne.symm] at hx ⊢
  obtain rfl : y = 1 := by rcases y with _ | _ | y <;> simp [hne] at hy ⊢
  have hkeeps := hk (list1972b, ntpTime 2288000000) Nat.zero_lt_one (by rw [hissued]; rfl)
  rw [hbo, hao] at hkeeps
  exact hkeeps.mono (by decide +kernel)

end Carillon.Leap
