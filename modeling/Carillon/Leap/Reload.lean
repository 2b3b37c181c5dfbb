/-
# What the updater saves loads

`loadState` checks a saved pending object against the active one, at the instant it
was accepted.  The updater checks a candidate against its newest object only, and the
engine against its own anchor.  A state that the updater builds itself loads again,
because the engine's anchor is the active object then.  After a start with a pending
object the anchor is that object, and a later candidate may differ from the active one
on history that the pending object brought in; `saved_state_unloadable` is such a run.
What is needed is that the anchor agrees with the active object when a candidate is
granted (`World.Aligned`).
-/
import Mathlib.Tactic
import Carillon.Leap.Durable

namespace Carillon.Leap

/-! ## Objects that extend one another -/

section

variable {sha256 : Bytes → Digest} {a e o : Object} {now now' : ℤ}

/-- An accepted revision is accepted over any shorter window. -/
theorem Table.Revises.mono (h : e.table.Revises a.table now)
    (hc : a.table.cutoff now' ≤ a.table.cutoff now) : e.table.Revises a.table now' := by
  refine { h with past_eq := ?_ }
  have hpast := h.past_eq
  rw [a.valid.past_eq_upTo, e.valid.past_eq_upTo] at hpast ⊢
  rw [← Table.upTo_upTo hc, hpast, Table.upTo_upTo hc]

/-- Revisions compose over a window of the first that the second covers. -/
theorem Table.Revises.trans (h : e.table.Revises a.table now) (h' : o.table.Revises e.table now')
    (hc : a.table.cutoff now ≤ e.table.cutoff now') : o.table.Revises a.table now where
  updated_le := h.updated_le.trans h'.updated_le
  expiry_le := h.expiry_le.trans h'.expiry_le
  dates_ne := by
    -- equal dates at the ends would make the dates in between equal
    rintro ⟨hu, he⟩
    have h₁ := h.updated_le
    have h₂ := h.expiry_le
    have h₃ := h'.updated_le
    have h₄ := h'.expiry_le
    exact h.dates_ne ⟨by omega, by omega⟩
  baseline_eq := h'.baseline_eq.trans h.baseline_eq
  offset_eq := h'.offset_eq.trans h.offset_eq
  renewal := by
    intro hu
    have h₁ := h.updated_le
    have h₃ := h'.updated_le
    rw [h'.renewal (by omega), h.renewal (by omega)]
  past_eq := by
    have h₁ := h.past_eq
    have h₂ := h'.past_eq
    rw [a.valid.past_eq_upTo, e.valid.past_eq_upTo] at h₁
    rw [e.valid.past_eq_upTo, o.valid.past_eq_upTo] at h₂
    rw [a.valid.past_eq_upTo, o.valid.past_eq_upTo, h₁, ← Table.upTo_upTo hc, h₂,
      Table.upTo_upTo hc]

/-- `e` is `a`, or a revision of it that agrees with it on all it covers. -/
def Object.Extends (e a : Object) : Prop := e = a ∨ e.table.Revises a.table a.table.expiry

/-- No window of a table is longer than the one up to its expiry. -/
theorem cutoff_le_cutoff_expiry (t : Table) (now : ℤ) : t.cutoff now ≤ t.cutoff t.expiry := by
  simp only [Table.cutoff_eq_min]
  omega

/-- What follows an object that extends `a` follows `a`, at the same instant or
earlier. -/
theorem checkUpdate_of_extends (hash : sha256 o.data = sha256 e.data → o.data = e.data)
    (hext : e.Extends a) (hnow : now ≤ now') (hcov : o.table.Covers now)
    (hcheck : checkUpdate sha256 (some e) (some o) now' = .ok ()) :
    checkUpdate sha256 (some a) (some o) now = .ok () := by
  refine checkUpdate_some_iff.mpr ⟨hcov, ?_⟩
  obtain ⟨-, hm | hr⟩ := checkUpdate_some_iff.mp hcheck
  · have hoe : o = e := Object.ext_data (hash (congrArg Manifest.digest hm))
    subst hoe
    rcases hext with rfl | hr
    · exact .inl rfl
    · exact .inr (hr.mono (cutoff_le_cutoff_expiry _ _))
  · rcases hext with rfl | hea
    · refine .inr (hr.mono ?_)
      simp only [Table.cutoff_eq_min]
      omega
    · refine .inr ((hea.mono (cutoff_le_cutoff_expiry _ _)).trans hr ?_)
      have := hea.expiry_le
      simp only [Table.cutoff_eq_min]
      omega

/-- A revision extends what it revises if it agrees with it on all that one covers. -/
theorem extends_of_revises
    (hagree : e.table.upTo (a.table.expiry - 1) = a.table.upTo (a.table.expiry - 1))
    (h : e.table.Revises a.table now) : e.Extends a := by
  refine .inr { h with past_eq := ?_ }
  rw [a.valid.past_eq_upTo, e.valid.past_eq_upTo, Table.cutoff, if_neg (lt_irrefl _)]
  exact hagree.symm

end

/-! ## Views -/

/-- An instant that a record of the store may carry. -/
def YearOk (t : ℤ) : Prop := 1900 ≤ yearOf t ∧ yearOf t ≤ 9999

instance (t : ℤ) : Decidable (YearOk t) := by unfold YearOk; infer_instance

/-- The views of a run that starts at the bound `b`: bounds and, while known, readings
are nondecreasing, an execution is covered by the bound, and years have four digits. -/
structure ViewsOrdered (b : ℤ) (vs : List View) : Prop where
  start : ∀ v ∈ vs, b ≤ v.utcBound
  bound : vs.Pairwise (fun v v' => v.utcBound ≤ v'.utcBound)
  executed : vs.Pairwise (fun v v' => v.executed ≤ v'.executed)
  now : vs.Pairwise (fun v v' => v.known = true → v'.known = true → v.now ≤ v'.now)
  executed_le : ∀ v ∈ vs, v.executed ≤ v.utcBound
  now_year : ∀ v ∈ vs, v.known = true → YearOk v.now
  bound_year : ∀ v ∈ vs, v.utcBound = 0 ∨ YearOk v.utcBound
  executed_year : ∀ v ∈ vs, v.executed = 0 ∨ YearOk v.executed

instance (b : ℤ) (vs : List View) : Decidable (ViewsOrdered b vs) :=
  decidable_of_iff ((∀ v ∈ vs, b ≤ v.utcBound ∧ v.executed ≤ v.utcBound ∧
      (v.known = true → YearOk v.now) ∧ (v.utcBound = 0 ∨ YearOk v.utcBound) ∧
      (v.executed = 0 ∨ YearOk v.executed)) ∧
    vs.Pairwise (fun v v' => v.utcBound ≤ v'.utcBound) ∧
    vs.Pairwise (fun v v' => v.executed ≤ v'.executed) ∧
    vs.Pairwise (fun v v' => v.known = true → v'.known = true → v.now ≤ v'.now))
    ⟨fun ⟨h, hbound, hexecuted, hnow⟩ => ⟨fun v hv => (h v hv).1, hbound, hexecuted, hnow,
      fun v hv => (h v hv).2.1, fun v hv => (h v hv).2.2.1, fun v hv => (h v hv).2.2.2.1,
      fun v hv => (h v hv).2.2.2.2⟩,
    fun h => ⟨fun v hv => ⟨h.start v hv, h.executed_le v hv, h.now_year v hv, h.bound_year v hv,
      h.executed_year v hv⟩, h.bound, h.executed, h.now⟩⟩

/-- A view decides no earlier than its reading. -/
theorem View.now_le_effective (v : View) : v.now ≤ v.effective := by
  unfold View.effective
  split_ifs <;> omega

/-- Nor earlier than its bound. -/
theorem View.bound_le_effective (v : View) : v.utcBound ≤ v.effective := by
  unfold View.effective
  split_ifs <;> omega

/-- Where a view decides at, it decides at its reading or at its bound. -/
theorem View.effective_or (v : View) :
    (v.effective = v.now ∧ v.utcBound ≤ v.now) ∨
    (v.effective = v.utcBound ∧ v.now < v.utcBound) := by
  unfold View.effective
  split_ifs with h
  · exact .inr ⟨rfl, h⟩
  · exact .inl ⟨rfl, not_lt.mp h⟩

/-- The instant `t` is no later than where the views to come decide. -/
def Before (t : ℤ) (vs : List View) : Prop := ∀ v ∈ vs, v.known = true → t ≤ v.effective

namespace ViewsOrdered

variable {b : ℤ} {v : View} {vs : List View}

/-- The views that remain are ordered. -/
theorem tail (h : ViewsOrdered b (v :: vs)) : ViewsOrdered b vs where
  start v' hv' := h.start v' (List.mem_cons_of_mem _ hv')
  bound := (List.pairwise_cons.mp h.bound).2
  executed := (List.pairwise_cons.mp h.executed).2
  now := (List.pairwise_cons.mp h.now).2
  executed_le v' hv' := h.executed_le v' (List.mem_cons_of_mem _ hv')
  now_year v' hv' := h.now_year v' (List.mem_cons_of_mem _ hv')
  bound_year v' hv' := h.bound_year v' (List.mem_cons_of_mem _ hv')
  executed_year v' hv' := h.executed_year v' (List.mem_cons_of_mem _ hv')

/-- The bound of a view is before the views that follow. -/
theorem bound_before (h : ViewsOrdered b (v :: vs)) : Before v.utcBound vs :=
  fun v' hv' _ => ((List.pairwise_cons.mp h.bound).1 v' hv').trans v'.bound_le_effective

/-- So is its reading, if it is known. -/
theorem now_before (h : ViewsOrdered b (v :: vs)) (hk : v.known = true) : Before v.now vs :=
  fun v' hv' hk' => ((List.pairwise_cons.mp h.now).1 v' hv' hk hk').trans v'.now_le_effective

/-- So is the instant that it decides at. -/
theorem effective_before (h : ViewsOrdered b (v :: vs)) (hk : v.known = true) :
    Before v.effective vs := by
  rcases v.effective_or with ⟨he, -⟩ | ⟨he, -⟩ <;> rw [he]
  · exact h.now_before hk
  · exact h.bound_before

end ViewsOrdered

/-! ## The states of the updater stay loadable -/

section

variable (sha256 : Bytes → Digest) (F : Object → Prop)

/-- A record that the updater has asked the engine to approve for installation. -/
structure Candidate (s : State) (r : Record) (vs : List View) : Prop where
  file : F r.object
  provider : r.provider.Valid
  year : YearOk r.accepted
  covers : r.object.table.Covers r.accepted
  bound_le : s.utcBound ≤ r.accepted
  before : Before r.accepted vs

/-- The engine's anchor has the transitions of its active object on the whole interval that
one covers. -/
def World.Aligned (w : World) : Prop :=
  ∀ a ∈ w.eng.active, ∀ e ∈ w.eng.anchor, e.table.upTo (a.object.table.expiry - 1) =
    a.object.table.upTo (a.object.table.expiry - 1)

instance (w : World) : Decidable w.Aligned := by
  unfold World.Aligned
  infer_instance

/-- The engine grants the installation of a candidate. -/
def World.installs (w : World) : Label → Bool
  | .grant _ _ => match w.pc with
    | .approveInstall _ => true
    | _ => false
  | _ => false

/-- The state is loadable and so was every state saved, and the engine's anchor is its active
object or a revision of it.  `F` holds of the files in play, `vs` are the views to come. -/
structure World.Sound (w : World) (vs : List View) : Prop where
  valid : w.u.state.Valid sha256
  saves : ∀ s ∈ w.saves, s.Valid sha256
  before : Before w.u.state.utcBound vs
  inflight : ∀ p, w.inflight = some p → p.Valid
  installing : ∀ o p, w.pc = .installing o p → F o ∧ p.Valid
  candidate : ∀ r, w.pc = .approveInstall r → Candidate F w.u.state r vs
  pending : ∀ r, w.u.state.pending = some r → F r.object
  slot : ∀ q, w.slot = some q → F q.record.object
  file : ∀ e, w.eng.anchor = some e → F e
  anchor : ∀ a, w.eng.active = some a → ∃ e, w.eng.anchor = some e ∧
    (e = a.object ∨ ∃ t, e.table.Revises a.object.table t)
  granted : ∀ r q a, w.pc = .approveInstall r → w.slot = some q → q.phase = .answered true →
    w.u.state.active = some a →
    checkUpdate sha256 (some a.object) (some r.object) r.accepted = .ok ()

/-- The updater is not inside an installation before its save. -/
def Pc.plain : Pc → Bool
  | .installing _ _ => false
  | .approveInstall _ => false
  | _ => true

end

section

variable {sha256 : Bytes → Digest} {F : Object → Prop} {w w' : World} {vs vs' : List View}
  {mode : Mode} {b : Bool} {c : Caller} {r : Record}

/-- Moving on to a plain point keeps the world sound, if the updater's state stays so. -/
theorem World.Sound.move (h : w.Sound sha256 F vs) (hpc : w'.pc.plain = true)
    (hvalid : w'.u.state.Valid sha256) (hsaves : ∀ s ∈ w'.saves, s.Valid sha256)
    (hbefore : Before w'.u.state.utcBound vs')
    (hin : ∀ p, w'.inflight = some p → p.Valid)
    (hpend : ∀ r, w'.u.state.pending = some r → F r.object)
    (hslot : ∀ q, w'.slot = some q → F q.record.object) (heng : w'.eng = w.eng) :
    w'.Sound sha256 F vs' where
  valid := hvalid
  saves := hsaves
  before := hbefore
  inflight := hin
  installing := by intro o p hpc'; rw [hpc'] at hpc; cases hpc
  candidate := by intro r hpc'; rw [hpc'] at hpc; cases hpc
  pending := hpend
  slot := hslot
  file := heng ▸ h.file
  anchor := heng ▸ h.anchor
  granted := by intro r q a hpc'; rw [hpc'] at hpc; cases hpc

/-- In particular when the updater, its saves and the engine stay. -/
theorem World.Sound.same (h : w.Sound sha256 F vs) {slot : Option Request}
    {inflight : Option Provider} {pc : Pc} (hpc : pc.plain = true)
    (hin : ∀ p, inflight = some p → p.Valid) (hslot : ∀ q, slot = some q → F q.record.object) :
    World.Sound sha256 F { w with slot := slot, inflight := inflight, pc := pc } vs :=
  h.move hpc h.valid h.saves h.before hin h.pending hslot rfl

/-- Views that will not come need not be before. -/
theorem World.Sound.anti (h : w.Sound sha256 F vs) (hvs : vs' ⊆ vs) : w.Sound sha256 F vs' where
  valid := h.valid
  saves := h.saves
  before v hv := h.before v (hvs hv)
  inflight := h.inflight
  installing := h.installing
  candidate r hr :=
    let c := h.candidate r hr
    ⟨c.file, c.provider, c.year, c.covers, c.bound_le, fun v hv => c.before v (hvs hv)⟩
  pending := h.pending
  slot := h.slot
  file := h.file
  anchor := h.anchor
  granted := h.granted

/-- The slot after a call holds a file in play. -/
theorem World.Sound.posted (h : w.Sound sha256 F vs) (hr : F r.object) :
    ∀ q, w.posted r b = some q → F q.record.object := by
  unfold World.posted
  split_ifs
  · exact h.slot
  · rintro q ⟨⟩
    exact hr

/-- Asking the engine to approve a candidate. -/
theorem World.Sound.ask (h : w.Sound sha256 F vs) (hw : w.Free) (hsafe : w.Safe)
    (hr : Candidate F w.u.state r vs) :
    World.Sound sha256 F { w with slot := w.posted r false, pc := .approveInstall r } vs := by
  refine { h with
    installing := (by rintro o p ⟨⟩), candidate := (by rintro r' ⟨⟩; exact hr)
    slot := h.posted hr.file, granted := ?_ }
  -- what is in the slot is queued, or running still
  intro r' q a _ hslot hphase
  unfold World.posted at hslot
  split_ifs at hslot
  · cases (hw q hslot).symm.trans (hsafe.answered hslot hphase)
  · cases hslot
    cases hphase

/-- At rest no installation is under way. -/
theorem Pc.plain_of_rests {pc : Pc} (h : pc.rests = true) : pc.plain = true := by
  cases pc <;> first | rfl | cases h

/-- The updater goes on by itself. -/
theorem World.Sound.lands (h : w.Sound sha256 F vs) (hl : w.Lands w') : w'.Sound sha256 F vs := by
  cases hl with
  | rests pc hpc => exact h.same (Pc.plain_of_rests hpc) h.inflight h.slot
  | asks r c pending committed => exact h.same rfl h.inflight (h.posted (h.pending r pending))

/-- A save leaves the state and adds it to those saved. -/
theorem World.Sound.save (h : w.Sound sha256 F vs) (hpc : w.pc.plain = true) (out : SaveOutcome) :
    (w.save out).Sound sha256 F vs := by
  have hsaves : ∀ s ∈ w.u.state :: w.saves, s.Valid sha256 :=
    List.forall_mem_cons.mpr ⟨h.valid, h.saves⟩
  rcases out with _ | _ | _ <;>
    exact h.move hpc h.valid hsaves h.before h.inflight h.pending h.slot rfl

/-! ### Changes of the state -/

/-- Raising the bound and recording an execution or a check that it covers keeps a state
loadable. -/
theorem State.Valid.raise {s : State} (h : s.Valid sha256) {t x l : ℤ} (ht : s.utcBound ≤ t)
    (hyear : t = 0 ∨ YearOk t) (hx : x = s.executed ∨ x = 0 ∨ (1900 ≤ yearOf x ∧ x ≤ t))
    (hl : l = s.lastCheck ∨ l = 0 ∨ (1900 ≤ yearOf l ∧ l ≤ t)) :
    State.Valid sha256 { s with utcBound := t, executed := x, lastCheck := l } where
  record := h.record
  bound := hyear
  pair := h.pair
  execution := by
    rcases hx with rfl | hx
    · rcases h.execution with h0 | ⟨h₁, h₂⟩
      · exact .inl h0
      · exact .inr ⟨h₁, h₂.trans ht⟩
    · exact hx
  acceptance r hr := ⟨(h.acceptance r hr).1.trans ht, (h.acceptance r hr).2⟩
  check := by
    rcases hl with rfl | hl
    · rcases h.check with h0 | ⟨h₁, h₂⟩
      · exact .inl h0
      · exact .inr ⟨h₁, h₂.trans ht⟩
    · exact hl

variable {t : ℤ} {v : View} {u : Updater}

/-- A checkpoint of an ordered view keeps the state loadable. -/
theorem valid_checkpoint (h : u.state.Valid sha256) (hvs : ViewsOrdered t (v :: vs))
    (hb : Before u.state.utcBound (v :: vs)) (force : Bool) :
    (u.checkpoint v force).state.Valid sha256 ∧
      Before (u.checkpoint v force).state.utcBound vs := by
  obtain ⟨x, b, hst, hbound, hx⟩ := checkpoint_state u v force
  have hv : v ∈ v :: vs := List.mem_cons_self
  rw [hst]
  constructor
  · refine h.raise ?_ ?_ ?_ (.inl rfl)
    · omega
    · rcases hbound with rfl | ⟨-, rfl⟩
      · exact h.bound
      · exact hvs.bound_year v hv
    · rcases hx with rfl | ⟨rfl, hle⟩
      · exact .inl rfl
      · rcases hvs.executed_year v hv with h0 | hy
        · exact .inr (.inl h0)
        · exact .inr (.inr ⟨hy.1, (hvs.executed_le v hv).trans hle⟩)
  · rcases hbound with rfl | ⟨-, rfl⟩
    · exact fun v' hv' => hb v' (List.mem_cons_of_mem _ hv')
    · exact hvs.bound_before

/-- So does the end of a seed check. -/
theorem valid_seedChecked (h : u.state.Valid sha256) (hvs : ViewsOrdered t (v :: vs))
    (hb : Before u.state.utcBound (v :: vs)) :
    (u.seedChecked v).state.Valid sha256 ∧ Before (u.seedChecked v).state.utcBound vs := by
  have hv : v ∈ v :: vs := List.mem_cons_self
  have hb' : Before u.state.utcBound vs := fun v' hv' => hb v' (List.mem_cons_of_mem _ hv')
  rcases seedChecked_state u v with hst | ⟨hk, hst⟩ <;> rw [hst]
  · exact ⟨h, hb'⟩
  · have hnow := hvs.now_year v hv hk
    constructor
    · refine h.raise ?_ ?_ (.inl rfl) (.inr (.inr ⟨hnow.1, le_max_right _ _⟩))
      · exact (le_max_left _ _).trans (le_max_left _ _)
      · -- the new bound is the held one, the view's or the reading
        rcases max_choice (max u.state.utcBound v.utcBound) v.now with hm | hm <;> rw [hm]
        · rcases max_choice u.state.utcBound v.utcBound with hm | hm <;> rw [hm]
          · exact h.bound
          · exact hvs.bound_year v hv
        · exact .inr hnow
    · intro v' hv' hk'
      exact max_le (max_le (hb' v' hv' hk') (hvs.bound_before v' hv' hk'))
        (hvs.now_before hk v' hv' hk')

/-- A candidate that follows the active object can be made the pending one. -/
theorem valid_approved (h : u.state.Valid sha256) (hr : Candidate F u.state r vs)
    (hpair : ∀ a, u.state.active = some a →
      checkUpdate sha256 (some a.object) (some r.object) r.accepted = .ok ()) :
    (u.approved r).state.Valid sha256 where
  record := by
    rintro r' (hr' | hr')
    · exact h.record r' (.inl hr')
    · cases hr'
      exact ⟨hr.covers.known, hr.provider⟩
  bound := .inr hr.year
  pair := by
    rintro a p ha ⟨⟩
    exact hpair a ha
  execution := by
    rcases h.execution with h0 | ⟨h₁, h₂⟩
    · exact .inl h0
    · exact .inr ⟨h₁, h₂.trans hr.bound_le⟩
  acceptance := by
    rintro r' (hr' | hr')
    · obtain ⟨h₁, h₂⟩ := h.acceptance r' (.inl hr')
      exact ⟨h₁.trans hr.bound_le, h₂⟩
    · cases hr'
      exact ⟨le_rfl, hr.covers⟩
  check := by
    rcases h.check with h0 | ⟨h₁, h₂⟩
    · exact .inl h0
    · exact .inr ⟨h₁, h₂.trans hr.bound_le⟩

/-- The pending record can be made the active one. -/
theorem valid_activated (h : u.state.Valid sha256) (hr : u.state.pending = some r) :
    (u.activated r).state.Valid sha256 where
  record := by
    rintro r' (hr' | hr') <;> cases hr'
    exact h.record r (.inr hr)
  bound := h.bound
  pair := by rintro a p ha ⟨⟩
  execution := h.execution
  acceptance := by
    rintro r' (hr' | hr') <;> cases hr'
    exact h.acceptance r (.inr hr)
  check := h.check

/-! ### Steps -/

/-- An accepted object covers the instant it is accepted at. -/
theorem covers_of_checkUpdate {old : Option Object} {o : Object} {now : ℤ}
    (h : checkUpdate sha256 old (some o) now = .ok ()) : o.table.Covers now := by
  cases old with
  | none => exact checkUpdate_none_iff.mp h
  | some a => exact (checkUpdate_some_iff.mp h).1

/-- An installation asks for a sound candidate, decided at its view. -/
theorem World.Sound.install (h : w.Sound sha256 F (v :: vs)) (hvs : ViewsOrdered t (v :: vs))
    {o : Object} {p : Provider} (hpc : w.pc = .installing o p) (hk : v.known = true)
    (hcheck : checkUpdate sha256 w.u.state.anchor (some o) v.effective = .ok ()) :
    Candidate F w.u.state ⟨o, p, v.effective⟩ vs := by
  obtain ⟨hfile, hprov⟩ := h.installing o p hpc
  have hcov := covers_of_checkUpdate hcheck
  have hyear : YearOk v.effective := by
    rcases v.effective_or with ⟨he, -⟩ | ⟨he, -⟩
    · exact he ▸ hvs.now_year v List.mem_cons_self hk
    · rcases hvs.bound_year v List.mem_cons_self with h0 | hy
      · exact absurd (he.trans h0) hcov.known
      · exact he ▸ hy
  exact ⟨hfile, hprov, hyear, hcov, h.before v List.mem_cons_self hk, hvs.effective_before hk⟩

/-- A candidate that an aligned engine approves follows the active object. -/
theorem World.Sound.grants (h : w.Sound sha256 F (v :: vs)) (hsafe : w.Safe)
    (haligned : w.Aligned)
    (hash : ∀ o o', F o → F o' → sha256 o.data = sha256 o'.data → o.data = o'.data)
    {q : Request} {a : Record} (hslot : w.slot = some q) (hphase : q.phase = .running)
    (hk : v.known = true) (hpc : w.pc = .approveInstall r) (hr : q.record = r)
    (haccept : engineAccepts sha256 w.eng.anchor q.record.object v.effective = true)
    (ha : w.u.state.active = some a) :
    checkUpdate sha256 (some a.object) (some r.object) r.accepted = .ok () := by
  subst hr
  have hcand := h.candidate _ hpc
  have hactive := (hsafe.agree hslot hphase).trans ha
  obtain ⟨e, he, hrevises⟩ := h.anchor a hactive
  have hext : e.Extends a.object := by
    rcases hrevises with rfl | ⟨t, ht⟩
    · exact .inl rfl
    · exact extends_of_revises (haligned a hactive e he) ht
  rw [engineAccepts, decide_eq_true_eq, he] at haccept
  exact checkUpdate_of_extends (hash _ _ hcand.file (h.file e he)) hext
    (hcand.before v List.mem_cons_self hk) hcand.covers haccept

/-- A request whose answer leaves the engine's table alone stays in the slot with another phase, or
leaves it. -/
theorem World.Sound.rephase (h : w.Sound sha256 F vs) {slot : Option Request}
    (hslot : ∀ q', slot = some q' → ∃ q, w.slot = some q ∧ q'.record = q.record ∧
      q'.phase ≠ .answered true) : World.Sound sha256 F { w with slot := slot } vs := by
  refine { h with slot := fun q' hq' => ?_, granted := fun r q' a _ hq' hphase _ => ?_ }
  · obtain ⟨q, hq, hr, -⟩ := hslot q' hq'
    exact hr ▸ h.slot q hq
  · obtain ⟨q, -, -, hne⟩ := hslot q' hq'
    exact absurd hphase hne

/-- Approving a request, by an engine that is aligned if it is for an installation. -/
theorem World.Sound.approve (h : w.Sound sha256 F (v :: vs)) (hsafe : w.Safe)
    (haligned : ∀ r, w.pc = .approveInstall r → w.Aligned)
    (hash : ∀ o o', F o → F o' → sha256 o.data = sha256 o'.data → o.data = o'.data)
    {q : Request} (hslot : w.slot = some q) (hphase : q.phase = .running) (hk : v.known = true)
    (haccept : engineAccepts sha256 w.eng.anchor q.record.object v.effective = true)
    {approved : Option Manifest} : World.Sound sha256 F
      (World.answer { w with eng := { w.eng with approved := approved } } q true) vs := by
  refine { h.anti (List.subset_cons_self v vs) with
    slot := fun q' hq' => ?_, granted := fun r q' a hpc hq' _ ha => ?_ }
  · obtain ⟨-, rfl⟩ := World.answer_slot hq'
    exact h.slot q hslot
  · obtain ⟨ho, -⟩ := World.answer_slot hq'
    exact h.grants hsafe (haligned r hpc) hash hslot hphase hk hpc
      (hsafe.asked hslot ho hpc).1 haccept ha

/-- An activation makes the record's object the engine's anchor. -/
theorem World.Sound.activate (h : w.Sound sha256 F vs) (hsafe : w.Safe) {q : Request}
    (hslot : w.slot = some q) (hact : q.activate = true) {alive : Bool} : World.Sound sha256 F
      (World.answer { w with eng := ⟨some q.record, some q.record.object, none, alive⟩ } q b)
        vs := by
  have hfile := h.slot q hslot
  refine { h with
    slot := fun q' hq' => ?_, file := (by rintro e ⟨⟩; exact hfile)
    anchor := (by rintro a ⟨⟩; exact ⟨_, rfl, .inl rfl⟩), granted := fun r q' a hpc hq' _ _ => ?_ }
  · obtain ⟨-, rfl⟩ := World.answer_slot hq'
    exact hfile
  · obtain ⟨ho, -⟩ := World.answer_slot hq'
    cases hact.symm.trans (hsafe.asked hslot ho hpc).2

end

/-! ## Runs -/

/-- The objects in play in a run: those of the state it starts from and those that its
jobs bring. -/
def objects (s : State) (ls : List Label) : List Object :=
  (s.active.toList ++ s.pending.toList).map (·.object) ++
    ls.filterMap fun
      | .result (.object o) => some o
      | _ => none

section

variable {sha256 : Bytes → Digest} {F : Object → Prop} {w w' : World} {mode : Mode} {t : ℤ}
  {s : State}

/-- The views to come after a step were to come before it. -/
theorem views_subset (l : Label) (ls : List Label) : views ls ⊆ views (l :: ls) :=
  (List.sublist_cons_self l ls).filterMap _ |>.subset

/-- Every step keeps the states loadable. -/
theorem sound_step (hash : ∀ o o', F o → F o' → sha256 o.data = sha256 o'.data → o.data = o'.data)
    (hmode : ∀ i p, mode.provider i = some p → p.Valid) {l : Label} {ls : List Label}
    (hsafe : w.Safe) (h : w.Sound sha256 F (views (l :: ls)))
    (hvs : ViewsOrdered t (views (l :: ls))) (hfile : ∀ o, l = .result (.object o) → F o)
    (haligned : w.installs l = true → w.Aligned)
    (hs : step sha256 (engineAccepts sha256) mode w l = some w') :
    w'.Sound sha256 F (views ls) := by
  have h' : w.Sound sha256 F (views ls) := h.anti (views_subset l ls)
  cases step_takes hs with
  | goes l inflight w' hl rests job lands =>
    refine World.Sound.lands (h'.same (Pc.plain_of_rests rests) ?_ h.slot) lands
    intro p hp
    rcases job with heq | heq | ⟨i, heq⟩
    · exact h.inflight p (heq ▸ hp)
    · cases heq.symm.trans hp
    · exact hmode i p (heq.trans hp)
  | checkpoint v force pc rests hpc =>
    obtain ⟨hvalid, hbefore⟩ := valid_checkpoint h.valid hvs h.before force
    refine h'.move (Pc.plain_of_rests hpc) hvalid h.saves hbefore h.inflight ?_ h.slot rfl
    exact fun r hr => h.pending r ((checkpoint_records w.u v force).2.1 ▸ hr)
  | seedCheck v rests =>
    obtain ⟨hvalid, hbefore⟩ := valid_seedChecked h.valid hvs h.before
    refine h'.move rfl hvalid h.saves hbefore h.inflight ?_ h.slot rfl
    exact fun r hr => h.pending r ((seedChecked_records w.u v).2.1 ▸ hr)
  | declines v o p pc installing hpc =>
    exact h'.same (Pc.plain_of_rests hpc) h.inflight h.slot
  | asks v o p installing known passed =>
    exact h'.ask (hsafe.free (by rw [installing]; rfl)) hsafe
      (h.install hvs installing known passed)
  | saves out w' rests lands => exact (h'.save (Pc.plain_of_rests rests) out).lands lands
  | fetches o p select job =>
    exact { h' with
      inflight := by rintro p ⟨⟩
      installing := by
        rintro o' p' ⟨⟩
        exact ⟨hfile o rfl, h.inflight p job⟩
      candidate := by rintro r ⟨⟩
      granted := by rintro r q a ⟨⟩ }
  | refused q pc hslot hphase hpc =>
    exact h'.same (Pc.plain_of_rests hpc) h.inflight (by rintro q ⟨⟩)
  | abandons pc done hpc =>
    refine h'.same (Pc.plain_of_rests hpc) h.inflight fun q hq => ?_
    unfold orphaned at hq
    split at hq
    · rename_i q' hslot
      split_ifs at hq
      cases hq
      exact h.slot q' hslot
    · cases hq
  | approved r q asked hslot hphase =>
    have hcand := h'.candidate r asked
    refine h'.move rfl (valid_approved h.valid hcand fun a ha => ?_) h.saves hcand.before
      h.inflight ?_ (by rintro q ⟨⟩) rfl
    · exact h.granted r q a asked hslot hphase ha
    · rintro r' ⟨⟩
      exact hcand.file
  | confirmed r c q asked hslot hphase =>
    have htake : World.Sound sha256 F { w with slot := none } (views ls) :=
      h'.rephase (by rintro q ⟨⟩)
    exact h'.same rfl h.inflight
      (htake.posted (h.pending r (hsafe.waiting r (by rw [asked]; rfl)).1))
  | activated r c q asked hslot hphase =>
    have hpend := (hsafe.waiting r (by rw [asked]; rfl)).1
    exact h'.move rfl (valid_activated h.valid hpend) h.saves h'.before h.inflight
      (by rintro r ⟨⟩) (by rintro q ⟨⟩) rfl
  | cancelled => exact { h' with }
  | begins q hslot hphase going alive =>
    refine h'.rephase ?_
    rintro q' ⟨⟩
    exact ⟨q, hslot, rfl, by simp⟩
  | refuses q hslot hphase =>
    refine h'.rephase fun q' hq' => ?_
    obtain ⟨-, rfl⟩ := World.answer_slot (w := w) hq'
    exact ⟨q, hslot, rfl, by simp⟩
  | approves v fails q hslot hphase known accepted approval =>
    refine World.Sound.approve h hsafe (fun r hpc => haligned ?_) hash hslot hphase known accepted
    rw [World.installs, hpc]
  | activates v fails q hslot hphase known accepted activation agreed =>
    exact h'.activate hsafe hslot activation
  | dies idle => exact { h' with }

/-- A start from a loadable state: the pending object was checked against the active one. -/
theorem sound_start {vs : List View} (hload : s.Loads sha256) (hvs : ViewsOrdered s.utcBound vs)
    (hash : ∀ o o', F o → F o' → sha256 o.data = sha256 o'.data → o.data = o'.data)
    (hfile : ∀ r, s.Holds r → F r.object) : (World.start s).Sound sha256 F vs := by
  have hvalid := loads_iff.mp hload
  refine ⟨hvalid, by rintro st ⟨⟩, fun v hv _ => (hvs.start v hv).trans v.bound_le_effective,
    by rintro p ⟨⟩, by rintro o p ⟨⟩, by rintro r ⟨⟩, fun r hr => hfile r (.inr hr),
    by rintro q ⟨⟩, ?_, ?_, by rintro r q a ⟨⟩⟩
  · intro e he
    cases hp : s.pending with
    | some p =>
      simp only [World.start, State.anchor, hp, Option.some.injEq] at he
      exact he ▸ hfile p (.inr hp)
    | none =>
      simp only [World.start, State.anchor, hp, Option.map_eq_some_iff] at he
      obtain ⟨a, ha, rfl⟩ := he
      exact hfile a (.inl ha)
  · intro a ha
    simp only [World.start] at ha
    cases hp : s.pending with
    | some p =>
      refine ⟨p.object, by simp [World.start, State.anchor, hp], ?_⟩
      obtain ⟨-, hm | hr⟩ := checkUpdate_some_iff.mp (hvalid.pair a p ha hp)
      · exact .inl (Object.ext_data (hash _ _ (hfile p (.inr hp)) (hfile a (.inl ha))
          (congrArg Manifest.digest hm)))
      · exact .inr ⟨_, hr⟩
    | none => exact ⟨a.object, by simp [World.start, State.anchor, hp, ha], .inl rfl⟩

/-- They are ordered if all were. -/
theorem views_cons_tail {l : Label} {ls : List Label} (h : ViewsOrdered t (views (l :: ls))) :
    ViewsOrdered t (views ls) := by
  cases l <;> first | exact h | exact h.tail

end

/-- What the updater saves loads again, in every run from a loadable state in which the
engine's anchor agrees with its active object whenever it grants a candidate.  The views are
ordered from the state's bound on, providers are within the store's limits, and the digest
identifies the files in play. -/
theorem saved_states_load (sha256 : Bytes → Digest) (mode : Mode) (s : State) (ls : List Label)
    (w : World) (hload : s.Loads sha256) (hmode : ∀ i p, mode.provider i = some p → p.Valid)
    (hviews : ViewsOrdered s.utcBound (views ls))
    (hash : ∀ o ∈ objects s ls, ∀ o' ∈ objects s ls, sha256 o.data = sha256 o'.data →
      o.data = o'.data)
    (haligned : Runs.Along (step sha256 (engineAccepts sha256) mode)
      (fun w l => w.installs l = true → w.Aligned) (World.start s) ls)
    (hrun : Runs.run (step sha256 (engineAccepts sha256) mode) (World.start s) ls = some w) :
    ∀ st ∈ w.saves, st.Loads sha256 := by
  let F : Object → Prop := fun o => o ∈ objects s ls
  have hash' : ∀ o o', F o → F o' → sha256 o.data = sha256 o'.data → o.data = o'.data :=
    fun o o' ho ho' => hash o ho o' ho'
  have hstart : (World.start s).Sound sha256 F (views ls) := by
    refine sound_start hload hviews hash' ?_
    rintro r (hr | hr) <;> simp [F, objects, hr]
  have hresult : ∀ o, Label.result (.object o) ∈ ls → F o := by
    intro o ho
    refine List.mem_append_right _ (List.mem_filterMap.mpr ⟨_, ho, rfl⟩)
  -- the invariant carries what is known of the labels to come
  have h := Runs.run_suffix (I := fun w ls => w.Safe ∧ w.Sound sha256 F (views ls) ∧
      ViewsOrdered s.utcBound (views ls) ∧ (∀ o, Label.result (.object o) ∈ ls → F o) ∧
      Runs.Along (step sha256 (engineAccepts sha256) mode)
        (fun w l => w.installs l = true → w.Aligned) w ls)
    (fun w l ls w' ⟨hsafe, hsound, hvs, hres, hal⟩ hs =>
      ⟨safe_step hsafe hs,
        sound_step hash' hmode hsafe hsound hvs (fun o ho => hres o (ho ▸ List.mem_cons_self))
          hal.1 hs,
        views_cons_tail hvs, fun o ho => hres o (List.mem_cons_of_mem _ ho), hal.2 w' hs⟩)
    ⟨safe_start s, hstart, hviews, hresult, haligned⟩ hrun
  exact fun st hst => loads_iff.mpr (h.2.1.saves st hst)

/-! ## A pending list that announces a leap second -/

/-- The active list of the example, which covers the turn of the year. -/
def listActive : Object where
  data := writeList 2280000000 2310000000 [(2272060800, 10), (2287785600, 11)]
  table := ⟨ntpTime 2310000000, ntpTime 2280000000, [⟨ntpTime 2287785600, .insert⟩],
    ntpTime 2272060800, 10⟩
  size_pos := by decide +kernel
  size_le := by decide +kernel
  parses := by decide +kernel
  updated_ne := by decide +kernel

/-- The pending list, which announces a leap second at that turn of the year. -/
def listPending : Object where
  data := writeList 2281000000 2315000000 [(2272060800, 10), (2287785600, 11), (2303683200, 12)]
  table := ⟨ntpTime 2315000000, ntpTime 2281000000,
    [⟨ntpTime 2287785600, .insert⟩, ⟨ntpTime 2303683200, .insert⟩], ntpTime 2272060800, 10⟩
  size_pos := by decide +kernel
  size_le := by decide +kernel
  parses := by decide +kernel
  updated_ne := by decide +kernel

/-- A list with the same leap seconds, published after the other two have expired. -/
def listNext : Object where
  data := writeList 2312000000 2330000000 [(2272060800, 10), (2287785600, 11), (2303683200, 12)]
  table := ⟨ntpTime 2330000000, ntpTime 2312000000,
    [⟨ntpTime 2287785600, .insert⟩, ⟨ntpTime 2303683200, .insert⟩], ntpTime 2272060800, 10⟩
  size_pos := by decide +kernel
  size_le := by decide +kernel
  parses := by decide +kernel
  updated_ne := by decide +kernel

/-- A state left by a crash between the commit and the activation of the pending list. -/
def crashedState : State where
  active := some ⟨listActive, ⟨.file, [], 0⟩, ntpTime 2285000000⟩
  pending := some ⟨listPending, ⟨.file, [], 0⟩, ntpTime 2288000000⟩
  utcBound := ntpTime 2288000000
  executed := 0
  lastCheck := 0

/-- The daemon comes back in time: the pending list becomes the active one, and after its
expiry the next one is installed. -/
def resumedRun : List Label :=
  let v : View := ⟨ntpTime 2290000000, true, ntpTime 2290000000, 0⟩
  let v' : View := ⟨ntpTime 2316000000, true, ntpTime 2316000000, ntpTime 2303683200⟩
  [.view v, .save .ok, .attempt, .begin_, .grant v false, .receive, .begin_, .grant v false,
    .receive, .save .ok, .job 0, .result (.object listNext), .view v', .begin_, .grant v' false,
    .receive, .save .ok]

/-- All three states that the run saves load again. -/
theorem saved_states_load_resumed :
    ∃ w, Runs.run (step firstBytes (engineAccepts firstBytes) (.manual []))
        (World.start crashedState) resumedRun = some w ∧ w.saves.length = 3 ∧
      ∀ st ∈ w.saves, st.Loads firstBytes := by
  have h : (Runs.run (step firstBytes (engineAccepts firstBytes) (.manual []))
      (World.start crashedState) resumedRun).map (·.saves.length) = some 3 := by
    decide +kernel
  obtain ⟨w, hw, hlen⟩ := Option.map_eq_some_iff.mp h
  refine ⟨w, hw, hlen, saved_states_load firstBytes (.manual []) crashedState resumedRun w
    (by decide +kernel) ?_ (by decide +kernel) (by decide +kernel) (by decide +kernel) hw⟩
  rintro i p ⟨⟩
  decide

/-- The daemon comes back after both lists have expired: the pending one is refused, the
next one installed. -/
def lateRun : List Label :=
  let v : View := ⟨ntpTime 2316000000, true, ntpTime 2316000000, 0⟩
  [.view v, .save .ok, .attempt, .begin_, .refuse, .receive, .job 0, .result (.object listNext),
    .view v, .begin_, .grant v false, .receive, .save .ok]

/-- The state loads, the views are in order and the files have different digests, but the
state that the run saves last does not load. -/
theorem saved_state_unloadable :
    crashedState.Loads firstBytes ∧ ViewsOrdered crashedState.utcBound (views lateRun) ∧
    (∀ o ∈ objects crashedState lateRun, ∀ o' ∈ objects crashedState lateRun,
      firstBytes o.data = firstBytes o'.data → o.data = o'.data) ∧
    (Runs.run (step firstBytes (engineAccepts firstBytes) (.manual [])) (World.start crashedState)
        lateRun).map (fun w => w.saves.map (fun st => decide (st.Loads firstBytes))) =
      some [false, true] := by
  exact ⟨by decide +kernel, by decide +kernel, by decide +kernel, by decide +kernel⟩

end Carillon.Leap
