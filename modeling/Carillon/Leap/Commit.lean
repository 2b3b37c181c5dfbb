/-
# The leap cache on the disk

`Store.write` replaces `state.json` or `seed.json` through a temporary file: create, write,
force, close, rename, force the directory.  Here the updater of `Leap/Updater` runs on top of a
directory that can lose power: a save is no longer one step with an outcome, but a sequence of
system calls, each of which may fail, with the engine going on beside it and a kill or a crash
possible in between.

At every moment of such a run, whatever a crash would leave of `state.json` is a whole document,
and it holds the record that the engine has active (`activation_durable`).  A start reads what it
sees in the directory, and nothing forces that then: when the process is killed after a save
whose directory sync failed, the restarted daemon may activate a record that a later crash takes
back.
-/
import Carillon.Lib.CrashFs
import Carillon.Leap.Activation

namespace Carillon.Leap

open CrashFs

/-! ## The directory -/

/-- The names in the cache directory. -/
inductive CacheName where
  /-- `state.json`. -/
  | state
  /-- `seed.json`. -/
  | seed
  /-- `.state-` with the digits of a nonce. -/
  | temporary (nonce : Bytes)
  deriving DecidableEq

/-- The content of a file in the cache: a document, or bytes that are none. -/
abbrev Document := Option DiskState

/-- The system call that `write` comes to next. -/
inductive WriteStage where
  | write
  | sync
  | close
  | rename
  | openDir
  | syncDir
  deriving DecidableEq

/-- A call of `write` under way. -/
structure Write where
  target : CacheName
  doc : Document
  stage : WriteStage
  tmp : CacheName
  inode : ℕ

/-- The updater with its surroundings, on a directory.  The `disk` of the world is not used. -/
structure Node where
  w : World
  fs : Fs CacheName Document
  job : Option Write

/-- What happens on a node. -/
inductive NodeEvent where
  /-- A step of the updater other than a save, or of the engine. -/
  | world (l : Label)
  /-- `Save` is called.  It gets a nonce for its temporary, or fails before there is one. -/
  | save (nonce : Option Bytes)
  /-- `SaveSeed` is called. -/
  | saveSeed (nonce : Option Bytes)
  /-- The next system call succeeds. -/
  | proceed
  /-- It fails; a write may have written something, and the removal may fail as well. -/
  | fail (written : Document) (removed : Bool)
  /-- The process is killed, and the daemon starts again. -/
  | kill
  /-- The power fails, and the daemon starts again. -/
  | crash (kept : List (Change CacheName)) (torn : ℕ → Document)

/-- The steps that are not the updater's own. -/
def Label.ofEngine : Label → Bool
  | .cancel | .begin_ | .refuse | .grant _ _ | .die => true
  | _ => false

/-- The directory after the next system call, and the stage that follows. -/
def Write.next (j : Write) (fs : Fs CacheName Document) :
    Option (Fs CacheName Document × Option WriteStage) :=
  match j.stage with
  | .write => some (fs.write j.inode j.doc, some .sync)
  | .sync => some (fs.sync j.inode, some .close)
  | .close => some (fs, some .rename)
  | .rename => (fs.rename j.tmp j.target).map (·, some .openDir)
  | .openDir => some (fs, some .syncDir)
  | .syncDir => some (fs.syncDir, none)

/-- The directory after a system call has failed; the deferred `Remove` of the temporary finds
nothing after the rename. -/
def Write.failed (j : Write) (fs : Fs CacheName Document) (written : Document) (removed : Bool) :
    Fs CacheName Document :=
  (if j.stage = .write then fs.write j.inode written else fs).remove j.tmp removed

section

variable (sha256 : Bytes → Digest) (accepts : Option Object → Object → ℤ → Bool) (mode : Mode)

/-- `Save` has returned to the updater; what `SaveSeed` returns is only logged. -/
def Node.saved (n : Node) (target : CacheName) (ok : Bool) (fs : Fs CacheName Document) :
    Option Node :=
  if target = .state then
    (onSave mode n.w (if ok then .ok else .failed false)).map fun w => ⟨w, fs, none⟩
  else some ⟨n.w, fs, none⟩

/-- `write` begins with a temporary of its own. -/
def Node.begin (n : Node) (target : CacheName) (doc : Document) : Option Bytes → Option Node
  | none => n.saved mode target false n.fs
  | some nonce =>
    if (n.fs.live (.temporary nonce)).isNone then
      some { n with
        fs := n.fs.create (.temporary nonce) none
        job := some ⟨target, doc, .write, .temporary nonce, n.fs.next⟩ }
    else none

/-- The daemon starts on a directory, from the state that `loadState` reads there. -/
def Node.boot (fs : Fs CacheName Document) : Option Node :=
  match fs.content .state with
  | none => some ⟨World.start .empty, fs, none⟩
  | some none => none
  | some (some d) =>
    match loadState sha256 (some d) with
    | .ok s => some ⟨World.start s, fs, none⟩
    | .error _ => none

/-- One event.  While a write is under way the updater waits for it. -/
def Node.step (n : Node) : NodeEvent → Option Node
  | .world l =>
    if l.isSave || (n.job.isSome && !l.ofEngine) then none
    else (Leap.step sha256 accepts mode n.w l).map fun w => { n with w := w }
  | .save nonce =>
    if n.job.isNone && (onSave mode n.w .ok).isSome then
      n.begin mode .state (some (encode sha256 n.w.u.state)) nonce
    else none
  | .saveSeed nonce => if n.job.isNone then n.begin mode .seed none nonce else none
  | .proceed => do
    let j ← n.job
    let (fs, stage) ← j.next n.fs
    match stage with
    | some stage => some { n with fs := fs, job := some { j with stage := stage } }
    | none => n.saved mode j.target true (fs.remove j.tmp true)
  | .fail written removed => do
    let j ← n.job
    n.saved mode j.target false (j.failed n.fs written removed)
  | .kill => Node.boot sha256 n.fs
  | .crash kept torn =>
    if kept.Sublist n.fs.pending then Node.boot sha256 (n.fs.crash kept torn) else none

end

/-! ## Steps and the disk -/

/-- The world with another disk. -/
def World.onDisk (w : World) (s : State) : World := { w with disk := s }

section

variable {sha256 : Bytes → Digest} {accepts : Option Object → Object → ℤ → Bool} {mode : Mode}
  {w w' : World} {l : Label} {s : State}

/-- Where the updater goes by itself does not depend on the disk. -/
theorem World.Lands.onDisk (h : w.Lands w') (s : State) : (w.onDisk s).Lands (w'.onDisk s) := by
  cases h with
  | rests pc hpc => exact .rests pc hpc
  | asks r c pending committed => exact .asks r c pending committed

/-- No step but a save looks at the disk, or changes it. -/
theorem World.Takes.onDisk (h : w.Takes sha256 accepts mode l w') (hl : l.isSave = false)
    (s : State) : (w.onDisk s).Takes sha256 accepts mode l (w'.onDisk s) := by
  cases h with
  | goes l inflight w' hl rests job lands => exact .goes l inflight _ hl rests job (lands.onDisk s)
  | checkpoint v force pc rests hpc => exact .checkpoint v force pc rests hpc
  | seedCheck v rests => exact .seedCheck v rests
  | declines v o p pc installing hpc => exact .declines v o p pc installing hpc
  | asks v o p installing known passed => exact .asks v o p installing known passed
  | saves out w' rests lands => cases hl
  | fetches o p select job => exact .fetches o p select job
  | refused q pc hslot hphase hpc => exact .refused q pc hslot hphase hpc
  | abandons pc done hpc => exact .abandons pc done hpc
  | approved r q asked hslot hphase => exact .approved r q asked hslot hphase
  | confirmed r c q asked hslot hphase => exact .confirmed r c q asked hslot hphase
  | activated r c q asked hslot hphase => exact .activated r c q asked hslot hphase
  | cancelled => exact .cancelled
  | begins q hslot hphase going alive => exact .begins q hslot hphase going alive
  | refuses q hslot hphase => exact .refuses q hslot hphase
  | approves v fails q hslot hphase known accepted approval =>
    exact .approves v fails q hslot hphase known accepted approval
  | activates v fails q hslot hphase known accepted activation agreed =>
    exact .activates v fails q hslot hphase known accepted activation agreed
  | dies idle => exact .dies idle

/-- The engine's own steps leave the updater alone. -/
theorem step_ofEngine (hl : l.ofEngine = true) (h : step sha256 accepts mode w l = some w') :
    w'.u = w.u := by
  cases step_takes h with
  | goes l inflight w' _ rests job lands => exact lands.frame.1
  | _ => first | rfl | cases hl

/-! ## What loads is a saved state -/

/-- A record that loads is written as it was read. -/
theorem encode_of_decodeOption {d : Option DiskRecord} {r : Option Record}
    (h : decodeOption sha256 d = .ok r) : r.map (encodeRecord sha256) = d := by
  cases d with
  | none => cases h; rfl
  | some d =>
    simp only [decodeOption, decodeRecord] at h
    split at h
    · cases h
    · rename_i r' hr
      cases h
      split at hr
      · cases hr
      · rename_i o ho
        split_ifs at hr with hc
        cases hr
        obtain ⟨manifest, data, provider, accepted⟩ := d
        have hdata : o.data = data := by
          unfold newObject at ho
          split at ho
          · cases ho
          · split at ho
            · cases ho
            · split at ho
              · cases ho
              · cases ho
                rfl
        have hman : o.manifest sha256 = manifest := not_not.mp (not_or.mp hc).1
        simp only [Option.map_some, encodeRecord, hman, hdata]

/-- A document that loads is the encoding of the state it loads as. -/
theorem encode_of_loadState {d : DiskState} (h : loadState sha256 (some d) = .ok s) :
    encode sha256 s = d := by
  simp only [loadState, validate, Checks.bind_eq_ok, Checks.mapError_eq_ok] at h
  obtain ⟨_, hv, a, ha, p, hp, _, -, _, -, _, -, _, -, _, -, _, -, hs⟩ := h
  have hversion : d.version = 1 := not_not.mp (refuseIf_eq_ok.mp hv)
  cases hs
  rw [encode, encode_of_decodeOption ha, encode_of_decodeOption hp, ← hversion]

/-! ## The invariant -/

variable (sha256) in
/-- The contents of `state.json` on which the world is safe: the documents of such states, and
no file for the state of a first start. -/
def World.records (w : World) : Set (Option Document) :=
  {o | ∃ s, (w.onDisk s).Safe ∧ (o = some (some (encode sha256 s)) ∨ (o = none ∧ s = .empty))}

/-- On any disk that is safe, the updater's own state could be. -/
theorem World.Safe.rewrite (h : (w.onDisk s).Safe) : (w.onDisk w.u.state).Safe :=
  ⟨fun _ hr => hr.1, fun _ hr => .inl hr, h.waiting, fun q hq => ⟨(h.slotted q hq).orphan,
    (h.slotted q hq).awaited, (h.slotted q hq).activated⟩,
    h.engine.imp_right fun ⟨hst, hr⟩ => ⟨hst.congr rfl rfl rfl, hr⟩⟩

/-- A step that saves nothing is safe on every disk that was safe. -/
theorem records_step (hl : l.isSave = false) (h : step sha256 accepts mode w l = some w') :
    w.records sha256 ⊆ w'.records sha256 := by
  rintro o ⟨s, hs, ho⟩
  exact ⟨s, hs.takes ((step_takes h).onDisk hl s), ho⟩

/-- A save that fails before it writes leaves every disk as it was. -/
theorem records_failed (h : onSave mode w (.failed false) = some w') :
    w.records sha256 ⊆ w'.records sha256 := by
  rintro o ⟨s, hs, ho⟩
  obtain ⟨hpc, hlands⟩ := onSave_lands h
  have hsave : ((w.onDisk s).save (.failed false)).Lands (w'.onDisk s) := hlands.onDisk s
  exact ⟨s, World.Safe.save hs hpc hsave, ho⟩

/-- The document that a save under way writes. -/
theorem records_rewrite (h : (w.records sha256).Nonempty) :
    some (some (encode sha256 w.u.state)) ∈ w.records sha256 := by
  obtain ⟨o, s, hs, -⟩ := h
  exact ⟨w.u.state, hs.rewrite, .inl rfl⟩

/-- After a save the document of the state is safe. -/
theorem records_saved (h : onSave mode w .ok = some w') (hne : (w.records sha256).Nonempty) :
    some (some (encode sha256 w.u.state)) ∈ w'.records sha256 := by
  obtain ⟨o, s, hs, -⟩ := hne
  obtain ⟨hpc, hlands⟩ := onSave_lands h
  have hsave : ((w.onDisk s).save .ok).Lands (w'.onDisk w.u.state) := hlands.onDisk w.u.state
  exact ⟨w.u.state, World.Safe.save hs hpc hsave, .inl rfl⟩

/-- A start is safe on the document that it has loaded. -/
theorem records_start (s : State) :
    some (some (encode sha256 s)) ∈ (World.start s).records sha256 :=
  ⟨s, safe_start s, .inl rfl⟩

/-- So is a first start, without a document. -/
theorem records_start_empty : none ∈ (World.start .empty).records sha256 :=
  ⟨.empty, safe_start .empty, .inr ⟨rfl, rfl⟩⟩

variable {fs fs' : Fs CacheName Document} {j : Write} {n n' : Node}

/-- How far the replacement has come at each system call. -/
def WriteStage.phase : WriteStage → Progress
  | .write => .made
  | .sync => .written
  | .close | .rename => .forced
  | .openDir | .syncDir => .renamed

variable (sha256) in
/-- Whatever a crash leaves of `state.json`, the world is safe on it.  A save replaces it by the
document of the updater's state, which it keeps waiting; the file of another write is beside it
until the rename. -/
inductive Node.Sound : Node → Prop where
  | idle (w : World) (fs : Fs CacheName Document) (holds : Holds fs .state (w.records sha256)) :
      Sound ⟨w, fs, none⟩
  | saving (w : World) (fs : Fs CacheName Document) (j : Write) (ne : CacheName.state ≠ j.tmp)
      (target : j.target = .state) (doc : j.doc = some (encode sha256 w.u.state))
      (mem : some j.doc ∈ w.records sha256)
      (replacing : Replacing fs .state j.tmp j.inode j.doc (w.records sha256) j.stage.phase) :
      Sound ⟨w, fs, some j⟩
  | seeding (w : World) (fs : Fs CacheName Document) (j : Write) (ne : CacheName.state ≠ j.tmp)
      (target : j.target = .seed) (holds : Holds fs .state (w.records sha256))
      (beside : j.stage.phase ≠ .renamed → Beside fs .state j.tmp j.inode) : Sound ⟨w, fs, some j⟩

/-- Whatever the stage of a write, `state.json` is safe. -/
theorem Node.Sound.holds (h : n.Sound sha256) : Holds n.fs .state (n.w.records sha256) := by
  cases h with
  | idle w fs holds => exact holds
  | saving w fs j ne target doc mem replacing =>
    exact replacing.holds.mono (Set.insert_subset mem le_rfl)
  | seeding w fs j ne target holds beside => exact holds

/-- A failed write leaves the directory as it was for `state.json`. -/
theorem holds_failed (h : n.Sound sha256) (hj : n.job = some j) (written : Document)
    (removed : Bool) : Holds (j.failed n.fs written removed) .state (n.w.records sha256) := by
  have hold := h.holds
  unfold Write.failed
  cases h with
  | idle w fs holds => cases hj
  | saving w fs j' ne target doc mem replacing =>
    cases hj
    refine Holds.remove ?_ ne removed
    split_ifs with hs
    · rw [hs] at replacing
      exact replacing.tear written
    · exact hold
  | seeding w fs j' ne target holds beside =>
    cases hj
    refine Holds.remove ?_ ne removed
    split_ifs with hs
    · exact holds.write (beside (by rw [hs]; exact Progress.noConfusion)).hidden written
    · exact holds

/-- A write returns with an error, or does not begin. -/
theorem Node.sound_saved_failed {target : CacheName} (h : Holds fs .state (n.w.records sha256))
    (hs : n.saved mode target false fs = some n') : n'.Sound sha256 := by
  simp only [Node.saved, Bool.false_eq_true, if_false] at hs
  split_ifs at hs
  · obtain ⟨w', hw, rfl⟩ := Option.map_eq_some_iff.mp hs
    exact .idle w' fs (h.mono (records_failed hw))
  · cases hs
    exact .idle n.w fs h

/-- A write begins, for one of the two files. -/
theorem Node.sound_begin {nonce : Option Bytes} (h : n.Sound sha256) :
    (∀ n', n.begin mode .state (some (encode sha256 n.w.u.state)) nonce = some n' →
      n'.Sound sha256) ∧ ∀ n', n.begin mode .seed none nonce = some n' → n'.Sound sha256 := by
  have hold := h.holds
  cases nonce with
  | none => exact ⟨fun _ hs => sound_saved_failed hold hs, fun _ hs => sound_saved_failed hold hs⟩
  | some nonce =>
    have hne : CacheName.state ≠ .temporary nonce := CacheName.noConfusion
    constructor <;> intro n' hs <;> simp only [Node.begin] at hs <;> split_ifs at hs <;> cases hs
    · exact .saving _ _ _ hne rfl rfl (records_rewrite hold.nonempty) (.create hold hne none)
    · exact .seeding _ _ _ hne rfl (hold.create hne none) fun _ => hold.beside hne none

/-- The next system call of a write succeeds. -/
theorem Node.sound_proceed (h : n.Sound sha256) {stage : WriteStage} (hj : n.job = some j)
    (hnext : j.next n.fs = some (fs', some stage)) :
    Node.Sound sha256 { n with fs := fs', job := some { j with stage := stage } } := by
  obtain ⟨target, doc, s, tmp, inode⟩ := j
  cases h with
  | idle w fs holds => cases hj
  | saving w fs j ne target doc mem replacing =>
    cases hj
    cases target
    cases s with
    | write => cases hnext; exact .saving _ _ _ ne rfl doc mem replacing.write
    | sync => cases hnext; exact .saving _ _ _ ne rfl doc mem replacing.sync
    | close => cases hnext; exact .saving _ _ _ ne rfl doc mem replacing
    | rename =>
      obtain ⟨fs'', hr, heq⟩ := Option.map_eq_some_iff.mp hnext
      cases heq
      exact .saving _ _ _ ne rfl doc mem (replacing.rename hr)
    | openDir => cases hnext; exact .saving _ _ _ ne rfl doc mem replacing
    | syncDir => cases hnext
  | seeding w fs j ne target holds beside =>
    cases hj
    cases target
    cases s with
    | write =>
      cases hnext
      have hb := beside Progress.noConfusion
      exact .seeding _ _ _ ne rfl (holds.write hb.hidden _) fun _ => hb.write _
    | sync =>
      cases hnext
      exact .seeding _ _ _ ne rfl (holds.sync inode) fun _ => (beside Progress.noConfusion).sync
    | close => cases hnext; exact .seeding _ _ _ ne rfl holds fun _ => beside Progress.noConfusion
    | rename =>
      obtain ⟨fs'', hr, heq⟩ := Option.map_eq_some_iff.mp hnext
      cases heq
      exact .seeding _ _ _ ne rfl (holds.renameOther ne CacheName.noConfusion hr)
        fun hs => absurd rfl hs
    | openDir => cases hnext; exact .seeding _ _ _ ne rfl holds fun hs => absurd rfl hs
    | syncDir => cases hnext

/-- The last system call of a write succeeds, and the write returns. -/
theorem Node.sound_saved (h : n.Sound sha256) (hj : n.job = some j)
    (hnext : j.next n.fs = some (fs', none))
    (hs : n.saved mode j.target true (fs'.remove j.tmp true) = some n') : n'.Sound sha256 := by
  -- it is the forcing of the directory
  obtain ⟨hstage, rfl⟩ : j.stage = .syncDir ∧ fs' = n.fs.syncDir := by
    unfold Write.next at hnext
    split at hnext <;> simp_all
  cases h with
  | idle w fs holds => cases hj
  | saving w fs j' ne target doc mem replacing =>
    cases hj
    rw [hstage] at replacing
    rw [target] at hs
    obtain ⟨w', hw, rfl⟩ := Option.map_eq_some_iff.mp hs
    cases replacing.syncDir with
    | settled holds =>
      refine .idle w' _ ((holds.remove ne true).mono (Set.singleton_subset_iff.mpr ?_))
      rw [doc]
      exact records_saved hw ⟨_, mem⟩
  | seeding w fs j' ne target holds beside =>
    cases hj
    rw [target] at hs
    cases hs
    exact .idle w _
      ((holds.syncDir.remove ne true).mono (Set.singleton_subset_iff.mpr holds.content))

/-- A start on a directory whose `state.json` is forced. -/
theorem Node.sound_boot {S : Set (Option Document)} (hfs : Holds fs .state S)
    (hforced : ∀ o ∈ fs.possible .state, o = fs.live .state) (hb : Node.boot sha256 fs = some n) :
    n.Sound sha256 := by
  have hself : Holds fs .state {fs.content .state} := by
    intro o ho
    rw [hforced o ho]
    exact ⟨rfl, hforced o ho ▸ (hfs o ho).2⟩
  unfold Node.boot at hb
  split at hb
  · rename_i hc
    cases hb
    rw [hc] at hself
    refine .idle _ _ (hself.mono ?_)
    rintro o rfl
    exact records_start_empty
  · cases hb
  · rename_i d hc
    split at hb
    · rename_i s hload
      cases hb
      rw [hc, ← encode_of_loadState hload] at hself
      refine .idle _ _ (hself.mono ?_)
      rintro o rfl
      exact records_start s
    · cases hb

/-- The process is killed only when `state.json` is forced. -/
def Node.Forced (n : Node) (e : NodeEvent) : Prop :=
  e = .kill → ∀ o ∈ n.fs.possible .state, o = n.fs.live .state

/-- Every event keeps `state.json` safe. -/
theorem Node.sound_step {e : NodeEvent} (h : n.Sound sha256) (hkill : n.Forced e)
    (hs : n.step sha256 accepts mode e = some n') : n'.Sound sha256 := by
  cases e with
  | world l =>
    simp only [Node.step] at hs
    split_ifs at hs with hc
    obtain ⟨w', hw, rfl⟩ := Option.map_eq_some_iff.mp hs
    rw [Bool.or_eq_true, not_or] at hc
    have hrecords := records_step (by simpa using hc.1) hw
    -- beside a write only the engine goes on, and the state that is written stays
    cases h with
    | idle w fs holds => exact .idle _ _ (holds.mono hrecords)
    | saving w fs j ne target doc mem replacing =>
      have hu : w'.u = w.u := step_ofEngine (by simpa using hc.2) hw
      exact .saving _ _ _ ne target (hu ▸ doc) (hrecords mem) (replacing.mono hrecords)
    | seeding w fs j ne target holds beside =>
      exact .seeding _ _ _ ne target (holds.mono hrecords) beside
  | save nonce =>
    simp only [Node.step] at hs
    split_ifs at hs
    exact (Node.sound_begin h).1 n' hs
  | saveSeed nonce =>
    simp only [Node.step] at hs
    split_ifs at hs
    exact (Node.sound_begin h).2 n' hs
  | proceed =>
    obtain ⟨j, hj, hrest⟩ := Option.bind_eq_some_iff.mp hs
    obtain ⟨⟨fs', stage⟩, hnext, hlast⟩ := Option.bind_eq_some_iff.mp hrest
    cases stage with
    | none => exact Node.sound_saved h hj hnext hlast
    | some stage => cases hlast; exact Node.sound_proceed h hj hnext
  | fail written removed =>
    obtain ⟨j, hj, hrest⟩ := Option.bind_eq_some_iff.mp hs
    exact Node.sound_saved_failed (holds_failed h hj written removed) hrest
  | kill => exact Node.sound_boot h.holds (hkill rfl) hs
  | crash kept torn =>
    simp only [Node.step] at hs
    split_ifs at hs with hkept
    exact Node.sound_boot (h.holds.crash hkept torn) (fun o ho => List.mem_singleton.mp ho) hs

end

/-! ## Runs -/

/-- **Crash-safe activation, down to the file system.**  Whatever system calls of the saves fail,
and wherever the power fails, in the middle of a save or of an activation, and whatever it loses
of what was not forced: while the engine has a record active, `state.json` as it would come back
is the whole document of a state that holds this record as active or pending.  The daemon starts
on a forced `state.json`, and a process that is killed leaves one. -/
theorem activation_durable (sha256 : Bytes → Digest) (accepts : Option Object → Object → ℤ → Bool)
    (mode : Mode) (fs₀ : Fs CacheName Document) (n₀ n : Node) (es : List NodeEvent)
    (hpending : fs₀.pending = [])
    (hdurable : ∀ name i, fs₀.disk name = some i → i < fs₀.next ∧ fs₀.durable i = true)
    (hboot : Node.boot sha256 fs₀ = some n₀)
    (hforced : Runs.Along (Node.step sha256 accepts mode) Node.Forced n₀ es)
    (hrun : Runs.run (Node.step sha256 accepts mode) n₀ es = some n) (r : Record)
    (hr : n.w.eng.active = some r) (kept : List (Change CacheName)) (torn : ℕ → Document)
    (hkept : kept.Sublist n.fs.pending) :
    ∃ s, (n.fs.crash kept torn).content .state = some (some (encode sha256 s)) ∧
      (s.active = some r ∨ s.pending = some r) := by
  have h₀ : n₀.Sound sha256 := by
    have honly : ∀ o ∈ fs₀.possible .state, o = fs₀.live .state := by
      intro o ho
      rw [Fs.possible, hpending] at ho
      rw [Fs.live, hpending]
      exact List.mem_singleton.mp ho
    refine Node.sound_boot (S := Set.univ) (fun o ho => ⟨trivial, fun i hi => ?_⟩) honly hboot
    rw [honly o ho, Fs.live, hpending] at hi
    exact hdurable _ i hi
  have h : n.Sound sha256 :=
    Runs.run_invariant (fun _ _ _ hs hC hstep => Node.sound_step hs hC hstep) h₀ hforced hrun
  obtain ⟨s, hs, ho⟩ := (h.holds.crash hkept torn).content
  have hholds : s.Holds r := by
    rcases hs.engine with heq | ⟨-, r', hr', hcom⟩
    · exact hs.active r (heq ▸ hr)
    · obtain rfl : r = r' := Option.some.inj (hr.symm.trans hr')
      exact .inr (hs.saved r hcom)
  rcases ho with ho | ⟨-, rfl⟩
  · exact ⟨s, ho, hholds⟩
  · rcases hholds with hh | hh <;> cases hh

/-- A cache directory with nothing in it. -/
def emptyCache : Fs CacheName Document := ⟨fun _ => none, [], fun _ => none, fun _ => true, 0⟩

/-- A first start that installs a list and activates it. -/
def installRun : List NodeEvent :=
  let v : View := ⟨ntpTime 2285000000, true, ntpTime 2285000000, 0⟩
  [.world (.view v), .save (some [1])] ++ List.replicate 6 .proceed ++
    ([.skip, .job 0, .result (.object list1972), .view v, .begin_, .grant v false, .receive] :
      List Label).map .world ++ [.save (some [2])] ++ List.replicate 6 .proceed ++
    ([.begin_, .grant v false, .receive, .begin_, .grant v false] : List Label).map .world

/-- After that run a crash leaves a document that holds the list. -/
theorem activation_durable_install :
    ∃ n, Runs.run (Node.step firstBytes (engineAccepts firstBytes) (.manual []))
        ⟨World.start .empty, emptyCache, none⟩ installRun = some n ∧
      ∃ s, (n.fs.crash [] fun _ => none).content .state = some (some (encode firstBytes s)) ∧
        (s.active = some record1972 ∨ s.pending = some record1972) := by
  have h : (Runs.run (Node.step firstBytes (engineAccepts firstBytes) (.manual []))
      ⟨World.start .empty, emptyCache, none⟩ installRun).map (·.w.eng.active) =
        some (some record1972) := by
    decide +kernel
  obtain ⟨n, hn, ha⟩ := Option.map_eq_some_iff.mp h
  refine ⟨n, hn, activation_durable firstBytes _ _ emptyCache _ n _ rfl
    (fun _ _ hi => by cases hi) rfl
    (Runs.along_of_mem (fun e he _ hk => ?_) _) hn record1972 ha [] _ (List.nil_sublist _)⟩
  subst hk
  simp [installRun] at he

end Carillon.Leap
