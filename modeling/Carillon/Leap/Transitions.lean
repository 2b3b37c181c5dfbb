/-
# What a step of the updater does

The machine of `Leap/Updater` is one function for each label, and most of them first look where
the goroutine is.  Here the same steps are listed by what they do to the world, each with what the
machine has checked before it (`step_takes`); what a step keeps is proved over this list.

When the updater goes on by itself it comes to rest, with no request to wait for and no object in
hand, or it asks the engine to approve the record that it has saved as pending (`World.Lands`).
-/
import Mathlib.Tactic
import Carillon.Leap.Updater

namespace Carillon.Leap

/-- The updater neither waits for the engine nor has an object in hand. -/
def Pc.rests : Pc → Bool
  | .installing _ _ | .approveInstall _ | .approve _ _ | .activating _ _ => false
  | _ => true

/-- The request that the updater waits for: its record, and whether it activates. -/
def Pc.waiting : Pc → Option (Record × Bool)
  | .approveInstall r => some (r, false)
  | .approve r _ => some (r, false)
  | .activating r _ => some (r, true)
  | _ => none

/-- The pending record that `activate` is at work on. -/
def Pc.pending : Pc → Option Record
  | .approve r _ => some r
  | .activating r _ => some r
  | _ => none

/-- At rest the updater waits for nothing. -/
theorem Pc.waiting_of_rests {pc : Pc} (h : pc.rests = true) : pc.waiting = none := by
  cases pc <;> first | rfl | cases h

theorem Pc.pending_of_rests {pc : Pc} (h : pc.rests = true) : pc.pending = none := by
  cases pc <;> first | rfl | cases h

def Label.isSave : Label → Bool
  | .save _ => true
  | _ => false

/-- The slot after a call of the engine. -/
def World.posted (w : World) (r : Record) (activate : Bool) : Option Request :=
  if w.ctxDone then w.slot else some ⟨r, activate, .queued, false⟩

/-- A call of the engine changes the slot only. -/
theorem World.call_posted (w : World) (r : Record) (activate : Bool) (pc : Pc) :
    { w.call r activate with pc := pc } = { w with slot := w.posted r activate, pc := pc } := by
  unfold World.call World.posted
  split_ifs <;> rfl

/-! ## The steps -/

section

variable (sha256 : Bytes → Digest) (accepts : Option Object → Object → ℤ → Bool) (mode : Mode)
  (w : World)

/-- Where the updater comes to when it goes on by itself. -/
inductive World.Lands : World → Prop where
  | rests (pc : Pc) (hpc : pc.rests = true) : Lands { w with pc := pc }
  | asks (r : Record) (c : Caller) (pending : w.u.state.pending = some r)
      (committed : w.u.committed = true) :
      Lands { w with slot := w.posted r false, pc := .approve r c }

/-- What the updater and its surroundings do. -/
inductive World.Takes : Label → World → Prop where
  /-- Something is due or not, or a job starts, or ends without an object. -/
  | goes (l : Label) (inflight : Option Provider) (w' : World) (hl : l.isSave = false)
      (rests : w.pc.rests = true)
      (job : inflight = w.inflight ∨ inflight = none ∨ ∃ i, mode.provider i = inflight)
      (lands : World.Lands { w with inflight := inflight } w') : Takes l w'
  | checkpoint (v : View) (force : Bool) (pc : Pc) (rests : w.pc.rests = true)
      (hpc : pc.rests = true) : Takes (.view v) { w with u := w.u.checkpoint v force, pc := pc }
  | seedCheck (v : View) (rests : w.pc.rests = true) :
      Takes (.view v) { w with u := w.u.seedChecked v, pc := .top }
  /-- `install` finds nothing to do, or an error. -/
  | declines (v : View) (o : Object) (p : Provider) (pc : Pc) (installing : w.pc = .installing o p)
      (hpc : pc.rests = true) : Takes (.view v) { w with pc := pc }
  /-- `install` asks for the approval of its object. -/
  | asks (v : View) (o : Object) (p : Provider) (installing : w.pc = .installing o p)
      (known : v.known = true)
      (passed : checkUpdate sha256 w.u.state.anchor (some o) v.effective = .ok ()) :
      Takes (.view v) { w with
        slot := w.posted ⟨o, p, v.effective⟩ false, pc := .approveInstall ⟨o, p, v.effective⟩ }
  | saves (out : SaveOutcome) (w' : World) (rests : w.pc.rests = true)
      (lands : (w.save out).Lands w') : Takes (.save out) w'
  | fetches (o : Object) (p : Provider) (select : w.pc = .select) (job : w.inflight = some p) :
      Takes (.result (.object o)) { w with inflight := none, pc := .installing o p }
  /-- The updater receives a refusal. -/
  | refused (q : Request) (pc : Pc) (hslot : w.slot = some q) (hphase : q.phase = .answered false)
      (hpc : pc.rests = true) : Takes .receive { w with slot := none, pc := pc }
  | abandons (pc : Pc) (done : w.ctxDone = true) (hpc : pc.rests = true) :
      Takes .abandon { w with slot := orphaned w.slot, pc := pc }
  /-- The updater receives the approval of a candidate. -/
  | approved (r : Record) (q : Request) (asked : w.pc = .approveInstall r) (hslot : w.slot = some q)
      (hphase : q.phase = .answered true) :
      Takes .receive { w with slot := none, u := w.u.approved r, pc := .commit }
  /-- The updater receives the approval of the pending record. -/
  | confirmed (r : Record) (c : Caller) (q : Request) (asked : w.pc = .approve r c)
      (hslot : w.slot = some q) (hphase : q.phase = .answered true) :
      Takes .receive { w with
        slot := World.posted { w with slot := none } r true, pc := .activating r c }
  /-- The updater receives the confirmation of its activation. -/
  | activated (r : Record) (c : Caller) (q : Request) (asked : w.pc = .activating r c)
      (hslot : w.slot = some q) (hphase : q.phase = .answered true) :
      Takes .receive { w with slot := none, u := w.u.activated r, pc := .compact c }
  | cancelled : Takes .cancel { w with ctxDone := true }
  | begins (q : Request) (hslot : w.slot = some q) (hphase : q.phase = .queued)
      (going : w.ctxDone = false) (alive : w.eng.alive = true) :
      Takes .begin_ { w with slot := some { q with phase := .running } }
  | refuses (q : Request) (hslot : w.slot = some q) (hphase : q.phase = .running) :
      Takes .refuse (w.answer q false)
  | approves (v : View) (fails : Bool) (q : Request) (hslot : w.slot = some q)
      (hphase : q.phase = .running) (known : v.known = true)
      (accepted : accepts w.eng.anchor q.record.object v.effective = true)
      (approval : q.activate = false) : Takes (.grant v fails) (World.answer { w with
        eng := { w.eng with approved := some (q.record.object.manifest sha256) } } q true)
  | activates (v : View) (fails : Bool) (q : Request) (hslot : w.slot = some q)
      (hphase : q.phase = .running) (known : v.known = true)
      (accepted : accepts w.eng.anchor q.record.object v.effective = true)
      (activation : q.activate = true)
      (agreed : w.eng.approved = some (q.record.object.manifest sha256)) :
      Takes (.grant v fails) (World.answer { w with
        eng := ⟨some q.record, some q.record.object, none, !fails⟩ } q !fails)
  | dies (idle : ∀ q, w.slot = some q → q.phase ≠ .running) :
      Takes .die { w with eng := { w.eng with alive := false } }

end

section

variable {w w' : World} {mode : Mode} {sha256 : Bytes → Digest}
  {accepts : Option Object → Object → ℤ → Bool} {l : Label}

/-- The updater, what it has saved and the engine stay where the updater goes on by itself. -/
theorem World.Lands.frame (h : w.Lands w') :
    w'.u = w.u ∧ w'.saves = w.saves ∧ w'.disk = w.disk ∧ w'.eng = w.eng := by
  cases h <;> exact ⟨rfl, rfl, rfl, rfl⟩

/-- After a result the updater is at rest. -/
theorem World.finish_rests (w : World) (mode : Mode) (b : Bool) :
    ∃ pc : Pc, pc.rests = true ∧ w.finish mode b = { w with pc := pc } :=
  ⟨_, by split_ifs <;> rfl, rfl⟩

/-- So it is when `activate` returns. -/
theorem World.returnTo_rests (w : World) (mode : Mode) (c : Caller) (b : Bool) :
    ∃ pc : Pc, pc.rests = true ∧ w.returnTo mode c b = { w with pc := pc } := by
  cases c with
  | loop v => exact ⟨.schedule v, rfl, rfl⟩
  | install => exact w.finish_rests mode b

/-- The end of a result is a landing. -/
theorem World.finish_lands (w : World) (b : Bool) : w.Lands (w.finish mode b) := by
  obtain ⟨pc, hpc, hfinish⟩ := w.finish_rests mode b
  exact hfinish ▸ .rests pc hpc

/-- So is the return of `activate`. -/
theorem World.returnTo_lands (w : World) (c : Caller) (b : Bool) :
    w.Lands (w.returnTo mode c b) := by
  obtain ⟨pc, hpc, hreturn⟩ := w.returnTo_rests mode c b
  exact hreturn ▸ .rests pc hpc

/-- `activate` returns, or asks for the approval of the saved pending record. -/
theorem World.activate_lands (w : World) (c : Caller) : w.Lands (w.activate mode c) := by
  unfold World.activate
  split
  · rename_i r hr
    split_ifs with hc
    · exact w.call_posted r false _ ▸ .asks r c hr hc
    · exact w.returnTo_lands c true
  · exact w.returnTo_lands c true

/-- Without an approval the updater gives up what it waited for. -/
theorem World.proceed_false (h : w.proceed mode false = some w') :
    ∃ pc : Pc, pc.rests = true ∧ w' = { w with pc := pc } := by
  unfold World.proceed at h
  split at h <;> cases h
  · exact w.finish_rests mode false
  · exact w.returnTo_rests mode _ false
  · exact w.returnTo_rests mode _ false

/-- A view is for a checkpoint, an installation or the end of a seed check. -/
theorem onView_takes {v : View} (h : onView sha256 mode w v = some w') :
    w.Takes sha256 accepts mode (.view v) w' := by
  unfold onView at h
  split at h <;> rename_i hpc
  · split_ifs at h
    cases h
    exact .checkpoint v false _ (by rw [hpc]; rfl) rfl
  · rename_i o p
    cases h
    have hdecline : ∀ b, w.Takes sha256 accepts mode (.view v) (w.finish mode b) := by
      intro b
      obtain ⟨pc, hrests, hfinish⟩ := w.finish_rests mode b
      exact hfinish ▸ .declines v o p pc hpc hrests
    unfold World.install
    split
    · exact hdecline false
    · rename_i hknown
      split
      · exact hdecline false
      · rename_i hpassed
        split
        · exact hdecline true
        · exact w.call_posted _ false _ ▸ .asks v o p hpc (by simpa using hknown) hpassed
  · cases h
    exact .seedCheck v (by rw [hpc]; rfl)
  · cases h
    exact .checkpoint v true _ (by rw [hpc]; rfl) rfl
  · cases h

/-- A save is made at rest, and the updater goes on from it by itself. -/
theorem onSave_lands {out : SaveOutcome} (h : onSave mode w out = some w') :
    w.pc.rests = true ∧ (w.save out).Lands w' := by
  unfold onSave at h
  split at h <;> rename_i hpc
  · split_ifs at h
    cases h
    exact ⟨by rw [hpc]; rfl, .rests _ rfl⟩
  · cases h
    refine ⟨by rw [hpc]; rfl, ?_⟩
    split_ifs
    · exact (w.save out).activate_lands .install
    · exact (w.save out).finish_lands false
  · cases h
    exact ⟨by rw [hpc]; rfl, (w.save out).returnTo_lands _ _⟩
  · split_ifs at h
    cases h
    exact ⟨by rw [hpc]; rfl, .rests _ rfl⟩
  · cases h

/-- A result without an object ends the job; one with an object starts its installation. -/
theorem onResult_takes {res : JobResult} (h : onResult mode w res = some w') :
    w.Takes sha256 accepts mode (.result res) w' := by
  unfold onResult at h
  split at h
  · rename_i p hpc hjob
    have hgoes : ∀ b, w.Takes sha256 accepts mode (.result res)
        (World.finish mode { w with inflight := none } b) := fun b =>
      .goes _ none _ rfl (by rw [hpc]; rfl) (.inr (.inl rfl)) (World.finish_lands _ b)
    cases res with
    | error => cases h; exact hgoes false
    | unchanged => cases h; exact hgoes true
    | object o => cases h; exact .fetches o p hpc hjob
  · cases h

/-- The answer is to one of the three requests, and a refusal ends the attempt. -/
theorem onReceive_takes (h : onReceive mode w = some w') :
    w.Takes sha256 accepts mode .receive w' := by
  unfold onReceive at h
  split at h
  · rename_i q hslot
    split at h
    · rename_i ok hphase
      cases ok with
      | false =>
        obtain ⟨pc, hrests, rfl⟩ := World.proceed_false h
        exact .refused q pc hslot hphase hrests
      | true =>
        unfold World.proceed at h
        split at h <;> rename_i hpc <;> cases h
        · exact .approved _ q hpc hslot hphase
        · exact World.call_posted _ _ true _ ▸ .confirmed _ _ q hpc hslot hphase
        · exact .activated _ _ q hpc hslot hphase
    · cases h
  · cases h

/-- The engine approves a record, or activates the one that it has approved. -/
theorem onGrant_takes {v : View} {fails : Bool} (h : onGrant sha256 accepts w v fails = some w') :
    w.Takes sha256 accepts mode (.grant v fails) w' := by
  unfold onGrant at h
  split at h
  · rename_i q hslot
    dsimp only at h
    split_ifs at h with hc hact hagreed
    · cases h
      exact .activates v fails q hslot hc.1 hc.2.1 hc.2.2 hact hagreed
    · cases h
      exact .approves v fails q hslot hc.1 hc.2.1 hc.2.2 (by simpa using hact)
  · cases h

/-- **Every step is one of those listed.** -/
theorem step_takes (h : step sha256 accepts mode w l = some w') :
    w.Takes sha256 accepts mode l w' := by
  cases l with
  | view v => exact onView_takes h
  | save out => exact .saves out _ (onSave_lands h).1 (onSave_lands h).2
  | skip =>
    simp only [step, onSkip] at h
    split at h <;> rename_i hpc <;> (try split_ifs at h) <;> cases h <;>
      exact .goes _ w.inflight _ rfl (by rw [hpc]; rfl) (.inl rfl) (.rests _ rfl)
  | attempt =>
    simp only [step, onAttempt] at h
    split at h <;> rename_i hpc
    · split_ifs at h
      cases h
      exact .goes _ w.inflight _ rfl (by rw [hpc]; rfl) (.inl rfl) (w.activate_lands _)
    · cases h
  | job i =>
    simp only [step, onJob] at h
    split at h
    · rename_i p hpc hp
      split_ifs at h
      cases h
      exact .goes _ (some p) _ rfl (by rw [hpc]; rfl) (.inr (.inr ⟨i, hp⟩)) (.rests _ rfl)
    · cases h
  | tick =>
    simp only [step] at h
    split_ifs at h with hpc
    cases h
    exact .goes _ w.inflight _ rfl (by rw [hpc]; rfl) (.inl rfl) (.rests _ rfl)
  | result res => exact onResult_takes h
  | stop =>
    simp only [step, onStop] at h
    split_ifs at h with hc
    cases h
    have hrests : w.pc.rests = true := by rcases hc.2 with hpc | hpc <;> rw [hpc] <;> rfl
    exact .goes _ none _ rfl hrests (.inr (.inl rfl)) (.rests _ rfl)
  | cancel => cases h; exact .cancelled
  | begin_ =>
    simp only [step, onBegin] at h
    split at h
    · rename_i q hslot
      split_ifs at h with hc
      cases h
      exact .begins q hslot hc.1 hc.2.1 hc.2.2
    · cases h
  | refuse =>
    simp only [step, onRefuse] at h
    split at h
    · rename_i q hslot
      split_ifs at h with hphase
      cases h
      exact .refuses q hslot hphase
    · cases h
  | grant v fails => exact onGrant_takes h
  | receive => exact onReceive_takes h
  | abandon =>
    simp only [step, onAbandon] at h
    split_ifs at h with hctx
    obtain ⟨pc, hrests, rfl⟩ := World.proceed_false h
    exact .abandons pc hctx hrests
  | die =>
    simp only [step, onDie] at h
    split at h <;> rename_i hslot
    · split_ifs at h with hphase
      cases h
      exact .dies fun q hq => by cases hslot.symm.trans hq; exact hphase
    · cases h
      exact .dies fun q hq => by cases hslot.symm.trans hq

end

end Carillon.Leap
