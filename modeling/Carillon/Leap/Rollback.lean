/-
# No rollback across crashes

A table that the engine has once activated is a floor for every table after it.  The
updater asks for an activation only when the record is on the disk as the pending one,
and it checks each new object against the newest one that it holds; so what a restart
finds on the disk is checked against no less than what was active before the crash.

* `step_fetched` and `step_asked` say where the object that `install` has in hand comes from, and
  `step_active` when the engine's table changes;
* `Drawn` follows the objects of a daemon back to its first state and its fetches;
* `Floored` is the floor: the updater's newest object and the disk's keep the past.

The one step back that remains is the engine's own: a crash after an activation and
before the save that drops the pending record starts the engine with the table before,
while the newer one waits on the disk.
-/
import Mathlib.Tactic
import Carillon.Leap.Durable
import Carillon.Leap.Commit

namespace Carillon.Leap

/-! ## Where objects come from -/

/-- The object that `install` has in hand. -/
def Pc.object : Pc → Option Object
  | .installing o _ => some o
  | .approveInstall r => some r.object
  | _ => none

section

variable {w w' : World} {r : Record} {o : Object} {mode : Mode}
  {sha256 : Bytes → Digest} {accepts : Option Object → Object → ℤ → Bool} {l : Label}

/-- At rest the updater has no object in hand. -/
theorem Pc.object_of_rests {pc : Pc} (h : pc.rests = true) : pc.object = none := by
  cases pc <;> first | rfl | cases h

/-- Going on by itself the updater has no object in hand. -/
theorem World.Lands.object (h : w.Lands w') : w'.pc.object = none := by
  cases h with
  | rests pc hpc => exact Pc.object_of_rests hpc
  | asks => rfl

/-- An object in hand was so before the step, or has been fetched. -/
theorem step_fetched (h : step sha256 accepts mode w l = some w') (ho : w'.pc.object = some o) :
    w.pc.object = some o ∨ l = .result (.object o) := by
  cases step_takes h with
  | goes _ _ _ _ _ _ lands => cases lands.object.symm.trans ho
  | saves _ _ _ lands => cases lands.object.symm.trans ho
  | checkpoint | declines | refused | abandons =>
    rename_i hpc
    cases (Pc.object_of_rests hpc).symm.trans ho
  | seedCheck | approved | confirmed | activated => cases ho
  | asks v o' p installing =>
    cases ho
    exact .inl (by rw [installing]; rfl)
  | fetches o' p =>
    cases ho
    exact .inr rfl
  | _ => exact .inl ho

/-- Somebody waits for the answer to the request in the slot. -/
def World.Awaited (w : World) : Prop := ∃ q, w.slot = some q ∧ q.orphan = false

/-- An answer that somebody waits for is to a request that somebody waited for. -/
theorem World.answer_awaited {q : Request} {ok : Bool} (hslot : w.slot = some q)
    (h : (w.answer q ok).Awaited) : w.Awaited := by
  obtain ⟨q', hq', -⟩ := h
  exact ⟨q, hslot, (World.answer_slot hq').1⟩

/-- A candidate that the engine is asked for was so before the step, or has passed the check against
the newest object that the updater holds. -/
theorem step_asked (h : step sha256 accepts mode w l = some w') (hr : w'.pc = .approveInstall r)
    (hw : w'.Awaited) : (w.pc = .approveInstall r ∧ w.Awaited) ∨ ∃ v p, l = .view v ∧
      v.known = true ∧ w.pc = .installing r.object p ∧
      checkUpdate sha256 w.u.state.anchor (some r.object) v.effective = .ok () := by
  have hobject : w'.pc.object = some r.object := by rw [hr]; rfl
  cases step_takes h with
  | goes _ _ _ _ _ _ lands => cases lands.object.symm.trans hobject
  | saves _ _ _ lands => cases lands.object.symm.trans hobject
  | checkpoint | declines | refused | abandons =>
    rename_i hpc
    cases (Pc.object_of_rests hpc).symm.trans hobject
  | seedCheck | approved | confirmed | activated | fetches => cases hr
  | asks v o p installing known passed =>
    cases hr
    exact .inr ⟨v, p, rfl, known, installing, passed⟩
  | cancelled | dies => exact .inl ⟨hr, hw⟩
  | begins q hslot =>
    obtain ⟨_, ⟨⟩, ho⟩ := hw
    exact .inl ⟨hr, q, hslot, ho⟩
  | refuses q hslot => exact .inl ⟨hr, World.answer_awaited hslot hw⟩
  | approves _ _ q hslot => exact .inl ⟨hr, World.answer_awaited hslot hw⟩
  | activates _ _ q hslot => exact .inl ⟨hr, World.answer_awaited hslot hw⟩

/-- The engine's table changes only when it grants an activation. -/
theorem step_active (h : step sha256 accepts mode w l = some w') :
    w'.eng.active = w.eng.active ∨
      ∃ q, w.slot = some q ∧ q.activate = true ∧ w'.eng.active = some q.record := by
  cases step_takes h with
  | goes _ _ _ _ _ _ lands => exact .inl (by rw [lands.frame.2.2.2])
  | saves out _ _ lands =>
    have hsave : (w.save out).eng = w.eng := by rcases out with _ | _ | _ <;> rfl
    exact .inl (by rw [lands.frame.2.2.2, hsave])
  | activates _ _ q hslot _ _ _ activation => exact .inr ⟨q, hslot, activation, rfl⟩
  | _ => exact .inl rfl

/-- Only a save changes the disk, and it writes the updater's state. -/
theorem step_disk (h : step sha256 accepts mode w l = some w') :
    w'.disk = w.disk ∨ w'.disk = w.u.state := by
  cases step_takes h with
  | goes _ _ _ _ _ _ lands => exact .inl lands.frame.2.2.1
  | saves out _ _ lands =>
    rw [lands.frame.2.2.1]
    rcases out with _ | _ | _
    · exact .inr rfl
    · exact .inl rfl
    · exact .inr rfl
  | _ => exact .inl rfl

/-- A state that loads is the one that was saved. -/
theorem load_encode {s s' : State} (h : loadState sha256 (some (encode sha256 s)) = .ok s') :
    s' = s := by
  simp only [loadState, validate, encode, Checks.bind_eq_ok, Checks.mapError_eq_ok,
    decodeOption_encode, Option.mem_def] at h
  obtain ⟨_, -, _, ⟨rfl, -⟩, _, ⟨rfl, -⟩, _, -, _, -, _, -, _, -, _, -, _, -, h⟩ := h
  cases h
  rfl

/-! ## Provenance -/

variable {F : Object → Prop}

/-- Every object that the updater has in hand, holds or has saved is one of `F`. -/
structure World.Drawn (F : Object → Prop) (w : World) : Prop where
  state : ∀ r, w.u.state.Holds r → F r.object
  disk : ∀ r, w.disk.Holds r → F r.object
  fetched : ∀ o, w.pc.object = some o → F o

theorem State.Holds.congr {s s' : State} (ha : s'.active = s.active) (hp : s'.pending = s.pending)
    (h : s'.Holds r) : s.Holds r := h.imp (ha ▸ ·) (hp ▸ ·)

theorem State.anchor_congr {s s' : State} (ha : s'.active = s.active)
    (hp : s'.pending = s.pending) : s'.anchor = s.anchor := by
  unfold State.anchor
  rw [ha, hp]

/-- The updater's records after a step: those before it, the object in hand as the pending one, or
the pending one as the active one. -/
theorem step_records (hsafe : w.Safe) (h : step sha256 accepts mode w l = some w') :
    (w'.u.state.active = w.u.state.active ∧ w'.u.state.pending = w.u.state.pending) ∨
      (∃ r, w.pc = .approveInstall r ∧ w.Awaited ∧ w'.u.state.active = w.u.state.active ∧
        w'.u.state.pending = some r) ∨
      ∃ r, w.u.Committed r ∧ w.eng.active = some r ∧ w'.eng.active = some r ∧
        w'.u.state.active = some r ∧ w'.u.state.pending = none := by
  cases step_takes h with
  | goes _ _ _ _ _ _ lands => exact .inl ⟨by rw [lands.frame.1], by rw [lands.frame.1]⟩
  | saves out _ _ lands =>
    exact .inl ⟨by rw [lands.frame.1, World.save_state], by rw [lands.frame.1, World.save_state]⟩
  | checkpoint v force =>
    obtain ⟨ha, hp, -⟩ := checkpoint_records w.u v force
    exact .inl ⟨ha, hp⟩
  | seedCheck v =>
    obtain ⟨ha, hp, -⟩ := seedChecked_records w.u v
    exact .inl ⟨ha, hp⟩
  | approved r q asked hslot hphase =>
    exact .inr (.inl ⟨r, asked, ⟨q, hslot, hsafe.answered hslot hphase⟩, rfl, rfl⟩)
  | activated r c q asked hslot hphase =>
    have hcom := hsafe.waiting r (by rw [asked]; rfl)
    have hwait := hsafe.received hslot hphase
    rw [asked, Pc.waiting, Option.some.injEq, Prod.mk.injEq] at hwait
    obtain ⟨rfl, hact⟩ := hwait
    have heng := (hsafe.slotted q hslot).activated hact.symm hphase
    exact .inr (.inr ⟨q.record, hcom, heng, heng, rfl, rfl⟩)
  | _ => exact .inl ⟨rfl, rfl⟩

/-- The newest object is that of a held record. -/
theorem State.holds_of_anchor {s : State} (h : s.anchor = some o) :
    ∃ r, s.Holds r ∧ r.object = o := by
  unfold State.anchor at h
  split at h
  · rename_i p hp
    cases h
    exact ⟨p, .inr hp, rfl⟩
  · obtain ⟨a, ha, rfl⟩ := Option.map_eq_some_iff.mp h
    exact ⟨a, .inl ha, rfl⟩

/-- A daemon starts with objects of its first state. -/
theorem drawn_start {s : State} (h : ∀ r, s.Holds r → F r.object) : (World.start s).Drawn F :=
  ⟨h, h, by rintro o ⟨⟩⟩

/-- A step brings in no object but the one that a job fetches. -/
theorem drawn_step (hsafe : w.Safe) (h : w.Drawn F) (hl : ∀ o, l = .result (.object o) → F o)
    (hs : step sha256 accepts mode w l = some w') : w'.Drawn F := by
  refine ⟨fun r hr => ?_, fun r hr => ?_, fun o ho => ?_⟩
  · rcases step_records hsafe hs with ⟨ha, hp⟩ | ⟨r', hpc, -, ha, hp⟩ | ⟨r', hcom, -, -, ha, hp⟩
    · exact h.state r (hr.congr ha hp)
    · rcases hr with hr | hr
      · exact h.state r (.inl (ha ▸ hr))
      · cases hp.symm.trans hr
        exact h.fetched _ (by rw [hpc]; rfl)
    · rcases hr with hr | hr
      · cases ha.symm.trans hr
        exact h.state r (.inr hcom.1)
      · cases hp.symm.trans hr
  · rcases step_disk hs with hd | hd
    · exact h.disk r (hd ▸ hr)
    · exact h.state r (hd ▸ hr)
  · rcases step_fetched hs ho with ho | rfl
    · exact h.fetched o ho
    · exact hl o rfl

/-- A restart takes its objects from the disk. -/
theorem drawn_daemonStep {e : Event} (hsafe : w.Safe) (h : w.Drawn F)
    (he : ∀ o, e = .step (.result (.object o)) → F o)
    (hs : daemonStep sha256 accepts mode w e = some w') : w'.Drawn F := by
  cases e with
  | step l => exact drawn_step hsafe h (fun o ho => he o (ho ▸ rfl)) hs
  | restart =>
    simp only [daemonStep] at hs
    split at hs
    · rename_i s hload
      cases hs
      rw [load_encode hload]
      exact ⟨h.disk, h.disk, by rintro o ⟨⟩⟩
    · cases hs

/-! ## The floor -/

variable {t : Table} {i : ℤ}

/-- The newest objects of the updater and of the disk, and the one that the engine is asked to
approve, keep the past of `t` up to the instant `i`.  The engine's table does as well, unless it is
one that a restart has taken up while a newer one is pending. -/
structure World.Floored (t : Table) (i : ℤ) (w : World) : Prop where
  state : ∃ o, w.u.state.anchor = some o ∧ o.table.Keeps t i
  disk : ∃ o, w.disk.anchor = some o ∧ o.table.Keeps t i
  asked : ∀ r, w.pc = .approveInstall r → w.Awaited → r.object.table.Keeps t i
  engine : ∀ a, w.eng.active = some a → a.object.table.Keeps t i ∨
    (w.u.state.active = some a ∧ w.u.state.pending ≠ none ∧
      w.disk.active = some a ∧ w.disk.pending ≠ none)

/-- A committed record is the updater's newest. -/
theorem World.Floored.committed (h : w.Floored t i) (hcom : w.u.Committed r) :
    r.object.table.Keeps t i := by
  obtain ⟨o, ho, hk⟩ := h.state
  rw [State.anchor, hcom.1] at ho
  cases ho
  exact hk

/-- An object that passes the check against one above the floor is above it. -/
theorem keeps_of_check {a : Object} (hash : sha256 o.data = sha256 a.data → o.data = a.data)
    (ha : a.table.Keeps t i) (hi : i < t.expiry) {now : ℤ} (hnow : i ≤ now)
    (h : checkUpdate sha256 (some a) (some o) now = .ok ()) : o.table.Keeps t i := by
  refine ((keeps_of_checkUpdate hash h).mono ?_).trans ha
  rw [Table.cutoff_eq_min]
  have := ha.expiry_le
  omega

/-- No step goes below the floor, as long as the evidence does not fall behind of it. -/
theorem floored_step (hash : ∀ o o', F o → F o' → sha256 o.data = sha256 o'.data → o.data = o'.data)
    (hi : i < t.expiry) (hsafe : w.Safe) (hdrawn : w.Drawn F) (h : w.Floored t i)
    (hv : ∀ v, l = .view v → v.known = true → i ≤ v.effective)
    (hs : step sha256 accepts mode w l = some w') : w'.Floored t i := by
  have hstate : ∃ o, w'.u.state.anchor = some o ∧ o.table.Keeps t i := by
    rcases step_records hsafe hs with ⟨ha, hp⟩ | ⟨r, hpc, hw, -, hp⟩ | ⟨r, hcom, -, -, ha, hp⟩
    · rw [State.anchor_congr ha hp]
      exact h.state
    · exact ⟨r.object, by rw [State.anchor, hp], h.asked r hpc hw⟩
    · exact ⟨r.object, by rw [State.anchor, hp, ha]; rfl, h.committed hcom⟩
  refine ⟨hstate, ?_, fun r hr hw => ?_, fun a ha => ?_⟩
  · rcases step_disk hs with hd | hd
    · rw [hd]
      exact h.disk
    · rw [hd]
      exact h.state
  · rcases step_asked hs hr hw with ⟨hpc, hw'⟩ | ⟨v, p, rfl, hknown, hpc, hpassed⟩
    · exact h.asked r hpc hw'
    · obtain ⟨a, hanchor, hkeeps⟩ := h.state
      obtain ⟨ra, hholds, rfl⟩ := State.holds_of_anchor hanchor
      rw [hanchor] at hpassed
      exact keeps_of_check (hash _ _ (hdrawn.fetched _ (by rw [hpc]; rfl)) (hdrawn.state ra hholds))
        hkeeps hi (hv v rfl hknown) hpassed
  · rcases step_active hs with heq | ⟨q, hslot, hact, heq⟩
    · rw [heq] at ha
      rcases h.engine a ha with hk | ⟨hua, hup, hda, hdp⟩
      · exact .inl hk
      · have hdisk : w'.disk.active = some a ∧ w'.disk.pending ≠ none := by
          rcases step_disk hs with hd | hd
          · exact hd ▸ ⟨hda, hdp⟩
          · exact hd ▸ ⟨hua, hup⟩
        rcases step_records hsafe hs with ⟨ha', hp'⟩ | ⟨r, -, -, ha', hp'⟩ | ⟨r, hcom, heng, -⟩
        · exact .inr ⟨ha'.trans hua, hp' ▸ hup, hdisk⟩
        · exact .inr ⟨ha'.trans hua, by simp [hp'], hdisk⟩
        · cases heng.symm.trans ha
          exact .inl (h.committed hcom)
    · rw [heq] at ha
      cases ha
      exact .inl (h.committed (hsafe.committed hslot hact))

/-- A restart finds the floor on the disk. -/
theorem floored_restart (h : w.Floored t i)
    (hs : daemonStep sha256 accepts mode w .restart = some w') : w'.Floored t i := by
  simp only [daemonStep] at hs
  split at hs
  · rename_i s hload
    cases hs
    rw [load_encode hload]
    refine ⟨h.disk, h.disk, by rintro r ⟨⟩, fun a (ha : w.disk.active = some a) => ?_⟩
    by_cases hp : w.disk.pending = none
    · obtain ⟨o, ho, hk⟩ := h.disk
      rw [State.anchor, hp, ha] at ho
      cases ho
      exact .inl hk
    · exact .inr ⟨ha, hp, ha, hp⟩
  · cases hs

/-- When the engine grants an activation, the record is the newest one of the updater and of the
disk. -/
theorem floored_grant {v : View} {fails : Bool} {q : Request} (hsafe : w.Safe)
    (hslot : w.slot = some q) (hact : q.activate = true)
    (hs : step sha256 accepts mode w (.grant v fails) = some w') :
    w'.Floored q.record.object.table i := by
  have hcom := hsafe.committed hslot hact
  have hu : w'.u = w.u := step_ofEngine rfl hs
  have hdisk : w'.disk.pending = some q.record := by
    rcases step_disk hs with hd | hd
    · rw [hd]
      exact hsafe.saved _ hcom
    · rw [hd]
      exact hcom.1
  refine ⟨⟨q.record.object, by rw [State.anchor, hu, hcom.1], .refl _ _⟩,
    ⟨q.record.object, by rw [State.anchor, hdisk], .refl _ _⟩, fun r hr hw => ?_, fun a ha => ?_⟩
  · -- a request that somebody waits for is the one that the updater is at
    rcases step_asked hs hr hw with ⟨hpc, q', hslot', ho⟩ | ⟨v', p, hv, -⟩
    · cases hslot.symm.trans hslot'
      cases hact.symm.trans (hsafe.asked hslot ho hpc).2
    · cases hv
  · have hgranted : w'.eng.active = some q.record := by
      simp only [step, onGrant, hslot, if_pos hact] at hs
      split_ifs at hs
      cases hs
      rfl
    cases hgranted.symm.trans ha
    exact .inl (.refl _ _)

end

/-- A state of the daemon together with its provenance. -/
theorem drawn_run {sha256 : Bytes → Digest} {accepts : Option Object → Object → ℤ → Bool}
    {mode : Mode} {F : Object → Prop} {w w' : World} {es : List Event} (hsafe : w.Safe)
    (hdrawn : w.Drawn F) (hF : ∀ o, Event.step (.result (.object o)) ∈ es → F o)
    (hrun : Runs.run (daemonStep sha256 accepts mode) w es = some w') :
    w'.Safe ∧ w'.Drawn F := by
  have hstep : ∀ w e w', (w.Safe ∧ w.Drawn F) → (∀ o, e = Event.step (.result (.object o)) → F o) →
      daemonStep sha256 accepts mode w e = some w' → w'.Safe ∧ w'.Drawn F :=
    fun _ _ _ h hC hs => ⟨safe_daemonStep h.1 hs, drawn_daemonStep h.1 h.2 hC hs⟩
  refine Runs.run_invariant hstep ⟨hsafe, hdrawn⟩ (Runs.along_of_mem ?_ _) hrun
  rintro e he - o rfl
  exact hF o he

/-- **No rollback.**  After the engine has activated a record, through any further steps, failed
saves, lost answers, crashes and restarts: the newest object on the disk, every record that the
engine is asked to activate and the engine's own table keep the past of the record's table up to
any instant that it covers and that the updater's clock evidence does not fall behind of.  Only a
table that a restart has taken up while a newer one is pending on the disk may be older.  The
digest is assumed to identify the files in play. -/
theorem activation_floor (sha256 : Bytes → Digest) (accepts : Option Object → Object → ℤ → Bool)
    (mode : Mode) (F : Object → Prop) (s : State) (es es' : List Event) (w w₁ w₂ : World)
    (q : Request) (v : View) (fails : Bool) (i : ℤ)
    (hash : ∀ o o', F o → F o' → sha256 o.data = sha256 o'.data → o.data = o'.data)
    (hstart : ∀ r, s.Holds r → F r.object)
    (hF : ∀ o, Event.step (.result (.object o)) ∈ es ++ es' → F o)
    (hrun : Runs.run (daemonStep sha256 accepts mode) (World.start s) es = some w)
    (hslot : w.slot = some q) (hact : q.activate = true)
    (hgrant : step sha256 accepts mode w (.grant v fails) = some w₁)
    (hrun' : Runs.run (daemonStep sha256 accepts mode) w₁ es' = some w₂)
    (hi : i < q.record.object.table.expiry)
    (hviews : ∀ v', Event.step (.view v') ∈ es' → v'.known = true → i ≤ v'.effective) :
    (∃ o, w₂.disk.anchor = some o ∧ o.table.Keeps q.record.object.table i) ∧
    (∀ q', w₂.slot = some q' → q'.activate = true →
      q'.record.object.table.Keeps q.record.object.table i) ∧
    (∀ a, w₂.eng.active = some a → a.object.table.Keeps q.record.object.table i ∨
      (w₂.disk.active = some a ∧
        ∃ p, w₂.disk.pending = some p ∧ p.object.table.Keeps q.record.object.table i)) := by
  obtain ⟨hsafe, hdrawn⟩ := drawn_run (safe_start s) (drawn_start hstart)
    (fun o ho => hF o (List.mem_append_left _ ho)) hrun
  have hsafe₁ : w₁.Safe := safe_step hsafe hgrant
  have hdrawn₁ : w₁.Drawn F := drawn_step hsafe hdrawn (by rintro o ⟨⟩) hgrant
  have hfloor₁ : w₁.Floored q.record.object.table i := floored_grant hsafe hslot hact hgrant
  have hstep : ∀ w e w', ((w.Safe ∧ w.Drawn F) ∧ w.Floored q.record.object.table i) →
      ((∀ o, e = Event.step (.result (.object o)) → F o) ∧
        ∀ v, e = Event.step (.view v) → v.known = true → i ≤ v.effective) →
      daemonStep sha256 accepts mode w e = some w' →
      (w'.Safe ∧ w'.Drawn F) ∧ w'.Floored q.record.object.table i := by
    rintro w e w' ⟨⟨hs, hd⟩, hf⟩ ⟨hfile, hview⟩ he
    refine ⟨⟨safe_daemonStep hs he, drawn_daemonStep hs hd hfile he⟩, ?_⟩
    cases e with
    | step l => exact floored_step hash hi hs hd hf (fun v hv => hview v (hv ▸ rfl)) he
    | restart => exact floored_restart hf he
  have hfile : ∀ o, Event.step (.result (.object o)) ∈ es' → F o :=
    fun o ho => hF o (List.mem_append_right _ ho)
  obtain ⟨⟨hsafe₂, -⟩, h⟩ := Runs.run_invariant hstep ⟨⟨hsafe₁, hdrawn₁⟩, hfloor₁⟩
    (Runs.along_of_mem
      (fun e he _ => ⟨fun o ho => hfile o (ho ▸ he), fun v hv => hviews v (hv ▸ he)⟩) _) hrun'
  refine ⟨h.disk, fun q' hq' hact' => h.committed (hsafe₂.committed hq' hact'), fun a ha => ?_⟩
  refine (h.engine a ha).imp_right fun ⟨_, _, hda, hdp⟩ => ⟨hda, ?_⟩
  obtain ⟨p, hp⟩ := Option.ne_none_iff_exists'.mp hdp
  obtain ⟨o, ho, hk⟩ := h.disk
  rw [State.anchor, hp] at ho
  cases ho
  exact ⟨p, hp, hk⟩

/-- A record of the second sample list. -/
def record1972b : Record := ⟨list1972b, ⟨.file, [], 0⟩, ntpTime 2290000000⟩

/-- What follows the arrival of an object at a daemon that is not disturbed: the approval, the
save of the pending record, the second approval, the activation and the save of the active one. -/
def installation (v : View) : List Label :=
  [.view v, .begin_, .grant v false, .receive, .save .ok, .begin_, .grant v false,
    .receive, .begin_, .grant v false, .receive, .save .ok]

/-- A turn of the loop that fetches and installs a list. -/
def fetching (o : Object) (v : View) : List Event :=
  ([.view v, .save .ok, .skip, .job 0, .result (.object o)] ++ installation v : List Label).map
    .step

/-- The first sample list is installed, and the second one up to the engine's activation of it. -/
def twoInstalls : List Event :=
  fetching list1972 ⟨ntpTime 2285000000, true, ntpTime 2285000000, 0⟩ ++
    (fetching list1972b ⟨ntpTime 2290000000, true, ntpTime 2290000000, 0⟩).take 14

/-- The crash after that activation starts the engine with the first list again, and the second
one is on the disk as the floor. -/
theorem activation_floor_restart :
    let v : View := ⟨ntpTime 2290000000, true, ntpTime 2290000000, 0⟩
    let daemon := daemonStep firstBytes (engineAccepts firstBytes) (.manual [])
    ∃ w w₁ w₂ : World,
      Runs.run daemon (World.start .empty) twoInstalls = some w ∧
      step firstBytes (engineAccepts firstBytes) (.manual []) w (.grant v false) = some w₁ ∧
      w₁.eng.active = some record1972b ∧
      Runs.run daemon w₁ [.restart] = some w₂ ∧ w₂.eng.active = some record1972 ∧
      ∃ o, w₂.disk.anchor = some o ∧ o.table.Keeps list1972b.table (ntpTime 2300000000) := by
  intro v daemon
  have h : ((Runs.run daemon (World.start .empty) twoInstalls).bind fun w =>
      (step firstBytes (engineAccepts firstBytes) (.manual []) w (.grant v false)).bind fun w₁ =>
        (Runs.run daemon w₁ [.restart]).map fun w₂ => (w.slot, w₁.eng.active, w₂.eng.active)) =
      some (some ⟨record1972b, true, .running, false⟩, some record1972b, some record1972) := by
    decide +kernel
  simp only [Option.bind_eq_some_iff, Option.map_eq_some_iff, Prod.mk.injEq] at h
  obtain ⟨w, hw, w₁, hw₁, w₂, hw₂, hslot, hactive, hback⟩ := h
  refine ⟨w, w₁, w₂, hw, hw₁, hactive, hw₂, hback, ?_⟩
  exact (activation_floor firstBytes (engineAccepts firstBytes) (.manual [])
    (fun o => o = list1972 ∨ o = list1972b) .empty twoInstalls [.restart] w w₁ w₂
    _ v false (ntpTime 2300000000) (by rintro _ _ (rfl | rfl) (rfl | rfl) <;> decide +kernel)
    (by rintro r (h | h) <;> cases h) (by simp [twoInstalls, fetching, installation])
      hw hslot rfl hw₁ hw₂
    (by decide +kernel) (by simp)).1

end Carillon.Leap
