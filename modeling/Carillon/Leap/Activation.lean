/-
# Crash-safe activation

The leap record that the engine acts on is on the disk at every moment: the updater
asks for an activation only after a save that held the record as pending, and drops
the pending record only once the engine has confirmed it.  The delicate case is an
activation whose acknowledgement is lost.  It leaves the engine ahead of the updater;
but then the context is done or the engine has ended, no further approval arrives,
and the pending record stays where it is.
-/
import Mathlib.Tactic
import Carillon.Leap.Transitions

namespace Carillon.Leap

/-- The pending record is `r`, and it has been saved. -/
def Updater.Committed (u : Updater) (r : Record) : Prop :=
  u.state.pending = some r ∧ u.committed = true

/-- The engine is ahead of the updater, and no approval will reach the updater any
more: the context is done, the engine has ended, or the answer to receive is that to
the activation itself. -/
inductive World.Stuck (w : World) : Prop where
  | done (hctx : w.ctxDone = true) (hslot : w.slot = none)
  | dead (halive : w.eng.alive = false) (hslot : ∀ q, w.slot = some q → q.phase = .queued)
  | answered (q : Request) (ok : Bool) (hslot : w.slot = some q) (hact : q.activate = true)
      (hphase : q.phase = .answered ok) (hok : ok = false → w.eng.alive = false)

/-- A request in the slot: an orphan is work under way, any other request is the one
that the updater waits for. -/
structure World.Slotted (w : World) (q : Request) : Prop where
  orphan : q.orphan = true → w.ctxDone = true ∧ q.phase = .running ∧
    (q.activate = true → w.u.Committed q.record)
  awaited : q.orphan = false → w.pc.waiting = some (q.record, q.activate)
  activated : q.activate = true → q.phase = .answered true → w.eng.active = some q.record

/-- The invariant of the protocol between updater, engine and disk. -/
structure World.Safe (w : World) : Prop where
  saved : ∀ r, w.u.Committed r → w.disk.pending = some r
  active : ∀ r, w.u.state.active = some r → w.disk.Holds r
  waiting : ∀ r, w.pc.pending = some r → w.u.Committed r
  slotted : ∀ q, w.slot = some q → w.Slotted q
  engine : w.eng.active = w.u.state.active ∨
    (w.Stuck ∧ ∃ r, w.eng.active = some r ∧ w.u.Committed r)

/-- Being stuck is a matter of the context, the slot and the engine. -/
theorem World.Stuck.congr {w w' : World} (h : w.Stuck) (hctx : w'.ctxDone = w.ctxDone)
    (hslot : w'.slot = w.slot) (heng : w'.eng = w.eng) : w'.Stuck := by
  cases h with
  | done h₁ h₂ => exact .done (hctx.trans h₁) (hslot.trans h₂)
  | dead h₁ h₂ => exact .dead (heng ▸ h₁) (hslot ▸ h₂)
  | answered q ok h₁ h₂ h₃ h₄ => exact .answered q ok (hslot.trans h₁) h₂ h₃ (heng ▸ h₄)

section

variable {w w' : World} {r : Record} {b : Bool} {q : Request}

/-- Whoever is stuck with a request in the slot has an ended engine that will not take it up, or
the answer to an activation. -/
theorem World.Stuck.slot (h : w.Stuck) (hslot : w.slot = some q) :
    (w.eng.alive = false ∧ q.phase = .queued) ∨ (q.activate = true ∧
      ∃ ok, q.phase = .answered ok ∧ (ok = false → w.eng.alive = false)) := by
  cases h with
  | done _ hslot' => cases hslot.symm.trans hslot'
  | dead halive hqueued => exact .inl ⟨halive, hqueued q hslot⟩
  | answered q' ok hslot' hact hphase hok =>
    cases hslot.symm.trans hslot'
    exact .inr ⟨hact, ok, hphase, hok⟩

/-- In particular no work is under way. -/
theorem World.Stuck.idle (h : w.Stuck) (hslot : w.slot = some q) : q.phase ≠ .running := by
  rcases h.slot hslot with ⟨-, hphase⟩ | ⟨-, ok, hphase, -⟩ <;> rw [hphase] <;> intro hrunning <;>
    cases hrunning

/-- An answered request is no orphan. -/
theorem World.Safe.answered (h : w.Safe) {ok : Bool} (hslot : w.slot = some q)
    (hphase : q.phase = .answered ok) : q.orphan = false := by
  by_contra hne
  have hrunning := ((h.slotted q hslot).orphan (by simpa using hne)).2.1
  rw [hphase] at hrunning
  cases hrunning

/-- The answer that arrives is the one that the updater waits for. -/
theorem World.Safe.received (h : w.Safe) {ok : Bool} (hslot : w.slot = some q)
    (hphase : q.phase = .answered ok) : w.pc.waiting = some (q.record, q.activate) :=
  (h.slotted q hslot).awaited (h.answered hslot hphase)

/-- What an answer leaves in the slot. -/
theorem World.answer_slot {q' : Request} (h : (w.answer q b).slot = some q') :
    q.orphan = false ∧ q' = { q with phase := .answered b } := by
  simp only [World.answer] at h
  split_ifs at h with ho
  exact ⟨by simpa using ho, (Option.some.inj h).symm⟩

/-- The awaited request is the one in the slot. -/
theorem World.Safe.asked (h : w.Safe) (hslot : w.slot = some q)
    (ho : q.orphan = false) (hpc : w.pc = .approveInstall r) :
    q.record = r ∧ q.activate = false := by
  have hw := (h.slotted q hslot).awaited ho
  rw [hpc, Pc.waiting, Option.some.injEq, Prod.mk.injEq] at hw
  exact ⟨hw.1.symm, hw.2.symm⟩

/-- While work is under way the engine and the updater agree. -/
theorem World.Safe.agree (h : w.Safe) (hslot : w.slot = some q) (hphase : q.phase = .running) :
    w.eng.active = w.u.state.active :=
  h.engine.resolve_right fun hst => hst.1.idle hslot hphase

/-- The record of an activation under way is committed. -/
theorem World.Safe.committed (h : w.Safe) (hslot : w.slot = some q) (hact : q.activate = true) :
    w.u.Committed q.record := by
  have hq := h.slotted q hslot
  cases ho : q.orphan with
  | true => exact (hq.orphan ho).2.2 hact
  | false =>
    have hw := hq.awaited ho
    rw [hact] at hw
    apply h.waiting
    cases hpc : w.pc <;> rw [hpc] at hw <;> cases hw
    rfl

/-! ## Steps of the updater -/

/-- Nobody waits for what is in the slot. -/
def World.Free (w : World) : Prop := ∀ q, w.slot = some q → q.orphan = true

/-- So it is while the updater does not wait. -/
theorem World.Safe.free (h : w.Safe) (hw : w.pc.waiting = none) : w.Free := by
  intro q hq
  by_contra ho
  have := (h.slotted q hq).awaited (by simpa using ho)
  rw [hw] at this
  cases this

/-- Moving on keeps the protocol safe, as long as the active record stays, a committed
record stays committed, and the disk holds both. -/
theorem World.Safe.move (h : w.Safe) (hw : w.Free) {u : Updater} {pc : Pc}
    {inflight : Option Provider} {disk : State} {saves : List State} (hpc : pc.pending = none)
    (ha : u.state.active = w.u.state.active) (hcom : ∀ r, w.u.Committed r → u.Committed r)
    (hsaved : ∀ r, u.Committed r → disk.pending = some r)
    (hactive : ∀ r, u.state.active = some r → disk.Holds r) :
    World.Safe { w with u := u, pc := pc, inflight := inflight, disk := disk, saves := saves } := by
  refine ⟨hsaved, hactive, ?_, ?_, ?_⟩
  · intro r hr
    rw [hpc] at hr
    cases hr
  · intro q hq
    have hs := h.slotted q hq
    refine ⟨fun ho => ?_, fun ho => ?_, hs.activated⟩
    · obtain ⟨h₁, h₂, h₃⟩ := hs.orphan ho
      exact ⟨h₁, h₂, fun hact => hcom _ (h₃ hact)⟩
    · rw [hw q hq] at ho
      cases ho
  · rcases h.engine with heq | ⟨hst, r, hr, hcr⟩
    · exact .inl (heq.trans ha.symm)
    · exact .inr ⟨hst.congr rfl rfl rfl, r, hr, hcom r hcr⟩

/-- In particular when the records and the disk stay. -/
theorem World.Safe.same (h : w.Safe) (hw : w.Free) {u : Updater} {pc : Pc}
    {inflight : Option Provider} (hpc : pc.pending = none)
    (ha : u.state.active = w.u.state.active) (hp : u.state.pending = w.u.state.pending)
    (hc : u.committed = w.u.committed) :
    World.Safe { w with u := u, pc := pc, inflight := inflight } := by
  have hcom : ∀ r, u.Committed r ↔ w.u.Committed r := by
    intro r
    rw [Updater.Committed, Updater.Committed, hp, hc]
  exact h.move hw hpc ha (fun r => (hcom r).mpr) (fun r hr => h.saved r ((hcom r).mp hr))
    (fun r hr => h.active r (ha ▸ hr))

/-- Calling the engine keeps the protocol safe, if a call from `activate` is about the
saved pending record. -/
theorem World.Safe.call (h : w.Safe) (hw : w.Free) {pc : Pc} (hwait : pc.waiting = some (r, b))
    (hpend : ∀ r', pc.pending = some r' → w.u.Committed r') :
    World.Safe { w with slot := w.posted r b, pc := pc } := by
  refine ⟨h.saved, h.active, hpend, ?_, ?_⟩ <;> unfold World.posted <;> split_ifs with hctx
  · -- with the context done, the call never reaches the engine
    intro q hq
    have hs := h.slotted q hq
    refine ⟨hs.orphan, fun ho => ?_, hs.activated⟩
    rw [hw q hq] at ho
    cases ho
  · rintro q ⟨⟩
    exact ⟨by simp, fun _ => hwait, by simp⟩
  · exact h.engine.imp_right fun ⟨hst, hr⟩ => ⟨hst.congr rfl rfl rfl, hr⟩
  · refine h.engine.imp_right fun ⟨hst, hr⟩ => ⟨?_, hr⟩
    cases hst with
    | done hctx' hslot => exact absurd hctx' hctx
    | dead halive hslot => exact .dead halive (by rintro q ⟨⟩; rfl)
    | answered q ok hslot hact hphase hok =>
      -- a free slot holds running work only
      cases (hw q hslot).symm.trans (h.answered hslot hphase)

/-- The updater goes on by itself. -/
theorem World.Safe.lands (h : w.Safe) (hw : w.Free) (hl : w.Lands w') : w'.Safe := by
  cases hl with
  | rests pc hpc => exact h.same hw (Pc.pending_of_rests hpc) rfl rfl rfl
  | asks r c pending committed =>
    refine h.call hw rfl ?_
    rintro r' ⟨⟩
    exact ⟨pending, committed⟩

/-- A save puts the updater's records on the disk, or leaves the disk. -/
theorem World.Safe.save (h : w.Safe) (hpc : w.pc.rests = true) {out : SaveOutcome}
    (hl : (w.save out).Lands w') : w'.Safe := by
  have hw : w.Free := h.free (Pc.waiting_of_rests hpc)
  have hpend : w.pc.pending = none := Pc.pending_of_rests hpc
  have hsave : (w.save out).Safe ∧ (w.save out).Free := by
    rcases out with _ | _ | _
    · exact ⟨h.move hw hpend rfl (fun r hr => ⟨hr.1, rfl⟩) (fun r hr => hr.1) (fun r hr => .inl hr),
        hw⟩
    · exact ⟨h.move hw hpend rfl (fun r hr => hr) h.saved h.active, hw⟩
    · exact ⟨h.move hw hpend rfl (fun r hr => hr) (fun r hr => hr.1) (fun r hr => .inl hr), hw⟩
  exact hsave.1.lands hsave.2 hl

/-- A checkpoint leaves the records alone. -/
theorem checkpoint_records (u : Updater) (v : View) (force : Bool) :
    (u.checkpoint v force).state.active = u.state.active ∧
    (u.checkpoint v force).state.pending = u.state.pending ∧
    (u.checkpoint v force).committed = u.committed := by
  unfold Updater.checkpoint
  dsimp only
  split_ifs <;> exact ⟨rfl, rfl, rfl⟩

/-- So does the end of a seed check. -/
theorem seedChecked_records (u : Updater) (v : View) :
    (u.seedChecked v).state.active = u.state.active ∧
    (u.seedChecked v).state.pending = u.state.pending ∧
    (u.seedChecked v).committed = u.committed := by
  unfold Updater.seedChecked
  split_ifs <;> exact ⟨rfl, rfl, rfl⟩

/-! ## Answers -/

/-- Taking an answer out of the slot, unless it confirms an activation. -/
theorem World.Safe.take (h : w.Safe) {ok : Bool} (hslot : w.slot = some q)
    (hphase : q.phase = .answered ok) (hok : ok = false ∨ q.activate = false) :
    World.Safe { w with slot := none } := by
  refine ⟨h.saved, h.active, h.waiting, by simp, h.engine.imp_right fun ⟨hst, hr⟩ => ⟨?_, hr⟩⟩
  rcases hst.slot hslot with ⟨-, hqueued⟩ | ⟨hact, ok', hphase', hdead⟩
  · cases hphase.symm.trans hqueued
  · cases hphase.symm.trans hphase'
    rcases hok with rfl | hact'
    · exact .dead (hdead rfl) (by simp)
    · cases hact.symm.trans hact'

/-- An approved record becomes the pending one.  The engine is not ahead then: it has
answered an approval. -/
theorem World.Safe.approved (h : w.Safe) {ok : Bool} (hslot : w.slot = some q)
    (hphase : q.phase = .answered ok) (hact : q.activate = false) :
    World.Safe { w with slot := none, u := w.u.approved r, pc := .commit } := by
  have heng : w.eng.active = w.u.state.active := h.engine.resolve_right fun ⟨hst, _⟩ => by
    rcases hst.slot hslot with ⟨-, hqueued⟩ | ⟨hact', -⟩
    · cases hphase.symm.trans hqueued
    · cases hact.symm.trans hact'
  refine ⟨?_, h.active, by rintro r' ⟨⟩, by simp, .inl heng⟩
  rintro r' ⟨-, hc⟩
  cases hc

/-- A confirmed activation makes the pending record the active one. -/
theorem World.Safe.activated (h : w.Safe) {c : Caller} (heng : w.eng.active = some r)
    (hcom : w.u.Committed r) :
    World.Safe { w with slot := none, u := w.u.activated r, pc := .compact c } := by
  refine ⟨?_, ?_, by rintro r' ⟨⟩, by simp, .inl heng⟩
  · rintro r' ⟨hp, -⟩
    cases hp
  · rintro r' ⟨⟩
    exact .inr (h.saved r hcom)

/-- Without an answer only work under way stays, as an orphan. -/
theorem World.Safe.abandon (h : w.Safe) (hctx : w.ctxDone = true) :
    World.Safe { w with slot := orphaned w.slot } ∧
      World.Free { w with slot := orphaned w.slot } := by
  have horphan : ∀ q, orphaned w.slot = some q →
      ∃ q', w.slot = some q' ∧ q'.phase = .running ∧ q = { q' with orphan := true } := by
    intro q hq
    unfold orphaned at hq
    split at hq
    · rename_i q' hslot
      split_ifs at hq with hphase
      cases hq
      exact ⟨q', hslot, hphase, rfl⟩
    · cases hq
  refine ⟨⟨h.saved, h.active, h.waiting, fun q hq => ?_, ?_⟩, fun q hq => ?_⟩
  · obtain ⟨q', hslot, hphase, rfl⟩ := horphan q hq
    refine ⟨fun _ => ⟨hctx, hphase, fun hact => h.committed (q := q') hslot hact⟩, by simp, ?_⟩
    intro _ hphase'
    cases hphase.symm.trans hphase'
  · -- whoever is stuck has no work under way, so the slot is emptied
    refine h.engine.imp_right fun ⟨hst, hr⟩ => ⟨.done hctx ?_, hr⟩
    by_contra hne
    obtain ⟨q, hq⟩ := Option.ne_none_iff_exists'.mp hne
    obtain ⟨q', hslot, hphase, -⟩ := horphan q hq
    exact hst.idle hslot hphase
  · obtain ⟨q', -, -, rfl⟩ := horphan q hq
    rfl

/-! ## Steps of the engine -/

/-- The end of the context leaves the protocol safe. -/
theorem World.Safe.cancel (h : w.Safe) : World.Safe { w with ctxDone := true } := by
  refine ⟨h.saved, h.active, h.waiting, fun q hq => ?_,
    h.engine.imp_right fun ⟨hst, hr⟩ => ⟨?_, hr⟩⟩
  · have hs := h.slotted q hq
    exact ⟨fun ho => ⟨rfl, (hs.orphan ho).2⟩, hs.awaited, hs.activated⟩
  · cases hst with
    | done hctx hslot => exact .done rfl hslot
    | dead halive hslot => exact .dead halive hslot
    | answered q ok hslot hact hphase hok => exact .answered q ok hslot hact hphase hok

/-- A queued request is taken up by a live engine: nobody is stuck. -/
theorem World.Safe.begin (h : w.Safe) (hslot : w.slot = some q) (hphase : q.phase = .queued)
    (hctx : w.ctxDone = false) (halive : w.eng.alive = true) :
    World.Safe { w with slot := some { q with phase := .running } } := by
  have hq := h.slotted q hslot
  refine ⟨h.saved, h.active, h.waiting, ?_, .inl (h.engine.resolve_right fun ⟨hst, _⟩ => ?_)⟩
  · rintro q' ⟨⟩
    refine ⟨fun ho => ?_, hq.awaited, by simp⟩
    cases hctx.symm.trans (hq.orphan ho).1
  · rcases hst.slot hslot with ⟨halive', -⟩ | ⟨-, ok, hphase', -⟩
    · cases halive.symm.trans halive'
    · cases hphase.symm.trans hphase'

/-- An answer that leaves the active record alone. -/
theorem World.Safe.answer (h : w.Safe) (hslot : w.slot = some q) (hphase : q.phase = .running)
    {approved : Option Manifest} (hok : q.activate = true → b = false) :
    (World.answer { w with eng := { w.eng with approved := approved } } q b).Safe := by
  have hq := h.slotted q hslot
  refine ⟨h.saved, h.active, h.waiting, ?_, .inl (h.agree hslot hphase)⟩
  intro q' hq'
  obtain ⟨ho, rfl⟩ := World.answer_slot hq'
  refine ⟨fun ho' => ?_, hq.awaited, ?_⟩
  · cases ho.symm.trans ho'
  · rintro hact ⟨⟩
    cases hok hact

/-- An activation: the engine goes ahead of the updater until the answer arrives. -/
theorem World.Safe.grant (h : w.Safe) {fails : Bool} (hslot : w.slot = some q)
    (hact : q.activate = true) : (World.answer
      { w with eng := ⟨some q.record, some q.record.object, none, !fails⟩ } q !fails).Safe := by
  have hq := h.slotted q hslot
  refine ⟨h.saved, h.active, h.waiting, ?_, .inr ⟨?_, q.record, rfl, h.committed hslot hact⟩⟩
  · intro q' hq'
    obtain ⟨ho, rfl⟩ := World.answer_slot hq'
    refine ⟨fun ho' => ?_, hq.awaited, fun _ _ => rfl⟩
    cases ho.symm.trans ho'
  · cases ho : q.orphan with
    | true => exact .done (hq.orphan ho).1 (by simp [World.answer, ho])
    | false =>
      refine .answered { q with phase := .answered (!fails) } (!fails) ?_ hact rfl fun hf => hf
      simp [World.answer, ho]

/-- So does the end of the engine. -/
theorem World.Safe.die (h : w.Safe) :
    World.Safe { w with eng := { w.eng with alive := false } } := by
  refine ⟨h.saved, h.active, h.waiting, fun q hq => ?_,
    h.engine.imp_right fun ⟨hst, hr⟩ => ⟨?_, hr⟩⟩
  · have hs := h.slotted q hq
    exact ⟨hs.orphan, hs.awaited, hs.activated⟩
  · cases hst with
    | done hctx hslot => exact .done hctx hslot
    | dead halive hslot => exact .dead rfl hslot
    | answered q ok hslot hact hphase hok => exact .answered q ok hslot hact hphase fun _ => rfl

/-! ## Runs -/

variable {sha256 : Bytes → Digest} {accepts : Option Object → Object → ℤ → Bool} {mode : Mode}

/-- The daemon starts with what its disk holds. -/
theorem safe_start (s : State) : (World.start s).Safe := by
  refine ⟨fun r hr => hr.1, fun r hr => .inl hr, ?_, ?_, .inl rfl⟩
  · rintro r ⟨⟩
  · rintro q ⟨⟩

/-- Every step keeps the protocol safe. -/
theorem World.Safe.takes {l : Label} (h : w.Safe) (ht : w.Takes sha256 accepts mode l w') :
    w'.Safe := by
  cases ht with
  | goes l inflight w' hl rests job lands =>
    have hfree := h.free (Pc.waiting_of_rests rests)
    have hidle : World.Safe { w with inflight := inflight } :=
      h.same hfree (Pc.pending_of_rests rests) rfl rfl rfl
    exact hidle.lands hfree lands
  | checkpoint v force pc rests hpc =>
    obtain ⟨h₁, h₂, h₃⟩ := checkpoint_records w.u v force
    exact h.same (h.free (Pc.waiting_of_rests rests)) (Pc.pending_of_rests hpc) h₁ h₂ h₃
  | seedCheck v rests =>
    obtain ⟨h₁, h₂, h₃⟩ := seedChecked_records w.u v
    exact h.same (h.free (Pc.waiting_of_rests rests)) rfl h₁ h₂ h₃
  | declines v o p pc installing hpc =>
    exact h.same (h.free (by rw [installing]; rfl)) (Pc.pending_of_rests hpc) rfl rfl rfl
  | asks v o p installing known passed =>
    exact h.call (h.free (by rw [installing]; rfl)) rfl (by rintro r ⟨⟩)
  | saves out w' rests lands => exact h.save rests lands
  | fetches o p select job => exact h.same (h.free (by rw [select]; rfl)) rfl rfl rfl rfl
  | refused q pc hslot hphase hpc =>
    exact (h.take hslot hphase (.inl rfl)).same (by rintro q ⟨⟩) (Pc.pending_of_rests hpc)
      rfl rfl rfl
  | abandons pc done hpc =>
    exact (h.abandon done).1.same (h.abandon done).2 (Pc.pending_of_rests hpc) rfl rfl rfl
  | approved r q asked hslot hphase =>
    have hwait := h.received hslot hphase
    rw [asked] at hwait
    exact h.approved hslot hphase (congrArg Prod.snd (Option.some.inj hwait)).symm
  | confirmed r c q asked hslot hphase =>
    have hwait := h.received hslot hphase
    rw [asked] at hwait
    refine (h.take hslot hphase (.inr (congrArg Prod.snd (Option.some.inj hwait)).symm)).call
      (by rintro q ⟨⟩) rfl ?_
    rintro r' ⟨⟩
    exact h.waiting r (by rw [asked]; rfl)
  | activated r c q asked hslot hphase =>
    have hwait := h.received hslot hphase
    rw [asked, Pc.waiting, Option.some.injEq, Prod.mk.injEq] at hwait
    obtain ⟨rfl, hact⟩ := hwait
    exact h.activated ((h.slotted q hslot).activated hact.symm hphase) (h.committed hslot hact.symm)
  | cancelled => exact h.cancel
  | begins q hslot hphase going alive => exact h.begin hslot hphase going alive
  | refuses q hslot hphase => exact h.answer hslot hphase fun _ => rfl
  | approves v fails q hslot hphase known accepted approval =>
    exact h.answer hslot hphase fun hact => absurd hact (by simp [approval])
  | activates v fails q hslot hphase known accepted activation agreed =>
    exact h.grant hslot activation
  | dies idle => exact h.die

theorem safe_step {l : Label} (h : w.Safe) (hs : step sha256 accepts mode w l = some w') :
    w'.Safe :=
  h.takes (step_takes hs)

/-- A restart is safe, because the daemon starts with what its disk holds. -/
theorem safe_daemonStep {e : Event} (h : w.Safe)
    (hs : daemonStep sha256 accepts mode w e = some w') : w'.Safe := by
  cases e with
  | step l => exact safe_step h hs
  | restart =>
    simp only [daemonStep] at hs
    split at hs
    · cases hs
      exact (safe_start _).move (by rintro q ⟨⟩) rfl rfl (fun r hr => hr) (fun r hr => hr.1)
        (fun r hr => .inl hr)
    · cases hs

end

/-- Crash-safe activation: whatever the engine answers, whatever saves fail and
wherever the daemon crashes and restarts from its disk, the record that the engine has
active is on the disk as active or pending, and a record that `ActivateLeap` is called
with is on the disk as pending. -/
theorem activation_crash_safe (sha256 : Bytes → Digest)
    (accepts : Option Object → Object → ℤ → Bool) (mode : Mode) (s : State) (es : List Event)
    (w : World) (hrun : Runs.run (daemonStep sha256 accepts mode) (World.start s) es = some w) :
    (∀ r, w.eng.active = some r → w.disk.active = some r ∨ w.disk.pending = some r) ∧
    (∀ r c, w.pc = .activating r c → w.disk.pending = some r) := by
  have h : w.Safe := Runs.run_invariant (C := fun _ _ => True)
    (fun _ _ _ hs _ hstep => safe_daemonStep hs hstep) (safe_start s)
    (Runs.along_of_forall (fun _ _ => trivial) _ _) hrun
  refine ⟨fun r hr => ?_, fun r c hpc => h.saved r (h.waiting r (by rw [hpc]; rfl))⟩
  rcases h.engine with heq | ⟨-, r', hr', hcom⟩
  · exact h.active r (heq ▸ hr)
  · rw [hr] at hr'
    cases hr'
    exact .inr (h.saved r hcom)

/-- A record of the first sample list. -/
def record1972 : Record := ⟨list1972, ⟨.file, [], 0⟩, ntpTime 2285000000⟩

/-- A first start that installs the list, crashes between the save and the activation,
and activates it after the restart. -/
def crashRun : List Event :=
  let v : View := ⟨ntpTime 2285000000, true, ntpTime 2285000000, 0⟩
  (([.view v, .save .ok, .skip, .job 0, .result (.object list1972), .view v,
    .begin_, .grant v false, .receive, .save .ok] : List Label).map .step) ++ [.restart] ++
  (([.view v, .skip, .attempt, .begin_, .grant v false, .receive, .begin_, .grant v false] :
    List Label).map .step)

/-- In that run the engine ends up with the record active, and the disk has it. -/
theorem activation_crash_safe_restart :
    ∃ w, Runs.run (daemonStep firstBytes (engineAccepts firstBytes) (.manual []))
        (World.start .empty) crashRun = some w ∧ w.eng.active = some record1972 ∧
      (w.disk.active = some record1972 ∨ w.disk.pending = some record1972) := by
  have h : (Runs.run (daemonStep firstBytes (engineAccepts firstBytes) (.manual []))
      (World.start .empty) crashRun).map (·.eng.active) = some (some record1972) := by
    decide +kernel
  obtain ⟨w, hw, ha⟩ := Option.map_eq_some_iff.mp h
  exact ⟨w, hw, ha, (activation_crash_safe _ _ _ _ _ w hw).1 _ ha⟩

end Carillon.Leap
