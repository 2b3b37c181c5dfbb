/-
# The drift file on the disk

`writeDrift` replaces the drift file through a temporary one beside it; every system call on
the way can fail, the process can be killed and the power can fail between any two of them.
A later start sweeps the temporaries that were left behind.

The file always holds, whole, the text of the last call that returned without an error or of a
later one; a crash that loses directory changes or contents that were not forced does not change
that (`driftFile_whole`).

The text `"%.6f\n"` of a frequency is the parameter `text`: nothing here depends on it.
-/
import Carillon.Lib.CrashFs
import Carillon.Lib.Runs
import Carillon.Leap.Table

namespace Carillon.Drift

open CrashFs

/-- A file name. -/
abbrev FileName := List Char

/-! ## Temporaries -/

/-- `[0-9]+`. -/
def isNumber (u : List Char) : Bool := !u.isEmpty && u.all Char.isDigit

/-- The `-tmp-` of a temporary's name. -/
def mark : List Char := ['-', 't', 'm', 'p', '-']

/-- `driftTempPattern`, up to its `*`. -/
def driftTempPattern (base : FileName) : FileName := '.' :: (base ++ mark)

/-- A name that `os.CreateTemp` makes from the pattern. -/
def isTemporary (base name : FileName) : Bool :=
  (driftTempPattern base).isPrefixOf name && isNumber (name.drop (driftTempPattern base).length)

/-- `driftTempName`, the expression `-tmp-[0-9]+$`. -/
def driftTempName (name : FileName) : Bool :=
  name.tails.any fun s => mark.isPrefixOf s && isNumber (s.drop mark.length)

/-- The default name of the drift file. -/
def driftName : FileName := ['d', 'r', 'i', 'f', 't']

/-- `legacyDriftTempName`, the expression `^\.drift-[0-9]+$`. -/
def legacyDriftTempName (name : FileName) : Bool :=
  ('.' :: driftName ++ ['-']).isPrefixOf name && isNumber (name.drop 7)

/-- The names that the sweep for a destination takes for temporaries. -/
def swept (base name : FileName) : Bool :=
  ((driftTempPattern base).isPrefixOf name && driftTempName name) ||
    (decide (base = driftName) && legacyDriftTempName name)

/-- What `Lstat` tells the sweep about a name. -/
structure Stat where
  regular : Bool
  modTime : ℤ
  deriving DecidableEq

/-- The test that one name has to pass to be removed; `dest` is the file that the destination
stood for when the sweep began. -/
def removable (base : FileName) (now : ℤ) (dest inode : Option ℕ) (name : FileName)
    (stat : Option Stat) : Bool :=
  swept base name && stat.any (fun st => st.regular && decide (minute ≤ sub now st.modTime)) &&
    !(dest.isSome && decide (dest = inode))

/-- One round of the loop of `sweepDriftTemps`. -/
def sweepOne (base : FileName) (now : ℤ) (dest : Option ℕ) (fs : Fs FileName Bytes)
    (name : FileName) (stat : Option Stat) (ok : Bool) : Fs FileName Bytes :=
  if removable base now dest (fs.live name) name stat then fs.remove name ok else fs

/-- `sweepDriftTemps` over the names that `Glob` found. -/
def sweepDriftTemps (base : FileName) (now : ℤ) (lstat : FileName → Option Stat)
    (ok : FileName → Bool) (fs : Fs FileName Bytes) (names : List FileName) : Fs FileName Bytes :=
  names.foldl (fun fs' name => sweepOne base now (fs.live base) fs' name (lstat name) (ok name)) fs

/-! ## Writing -/

/-- The system call that `writeDrift` comes to next, once it has its temporary. -/
inductive Stage where
  | print
  | sync
  | close
  | chmod
  | rename
  | openDir
  | syncDir
  | closeDir
  deriving DecidableEq

/-- A call of `writeDrift` under way. -/
structure Job (K : Type) where
  ppm : K
  stage : Stage
  tmp : FileName
  inode : ℕ

/-- The directory, the call under way, and the calls that have ended, the latest first, with
whether they returned without an error. -/
structure DriftFile (K : Type) where
  fs : Fs FileName Bytes
  job : Option (Job K)
  calls : List (K × Bool)

/-- What happens. -/
inductive FileEvent (K : Type) where
  /-- `writeDrift` is called; `CreateTemp` returns a name, or fails. -/
  | start (ppm : K) (tmp : Option FileName)
  /-- The next system call succeeds. -/
  | proceed
  /-- It fails; a print may have written something, and the clean-up may fail as well. -/
  | fail (written : Bytes) (removed : Bool)
  /-- A sweep comes to a name. -/
  | sweep (now : ℤ) (dest : Option ℕ) (name : FileName) (stat : Option Stat) (ok : Bool)
  /-- The process is killed. -/
  | kill
  /-- The power fails. -/
  | crash (kept : List (Change FileName)) (torn : ℕ → Bytes)

variable {K : Type}

/-- The call under way ends. -/
def DriftFile.finish (d : DriftFile K) (j : Job K) (fs : Fs FileName Bytes) (ok : Bool) :
    DriftFile K :=
  ⟨fs, none, (j.ppm, ok) :: d.calls⟩

/-- The process ends: a call under way never returns. -/
def DriftFile.die (d : DriftFile K) (fs : Fs FileName Bytes) : DriftFile K :=
  match d.job with
  | some j => d.finish j fs false
  | none => { d with fs := fs }

/-- The directory after the next system call of a job, and the stage that follows. -/
def Job.next (text : K → Bytes) (base : FileName) (j : Job K) (fs : Fs FileName Bytes) :
    Option (Fs FileName Bytes × Option Stage) :=
  match j.stage with
  | .print => some (fs.write j.inode (text j.ppm), some .sync)
  | .sync => some (fs.sync j.inode, some .close)
  | .close => some (fs, some .chmod)
  | .chmod => some (fs, some .rename)
  | .rename => (fs.rename j.tmp base).map (·, some .openDir)
  | .openDir => some (fs, some .syncDir)
  | .syncDir => some (fs.syncDir, some .closeDir)
  | .closeDir => some (fs, none)

/-- The directory after the next system call of a job has failed: what comes before the
replacement is cleaned up, what comes after it is only reported. -/
def Job.failed (j : Job K) (fs : Fs FileName Bytes) (written : Bytes) (removed : Bool) :
    Fs FileName Bytes :=
  match j.stage with
  | .print => (fs.write j.inode written).remove j.tmp removed
  | .sync | .close | .chmod | .rename => fs.remove j.tmp removed
  | .openDir | .syncDir | .closeDir => fs

/-- One event. -/
def DriftFile.step (text : K → Bytes) (base : FileName) (d : DriftFile K) :
    FileEvent K → Option (DriftFile K)
  | .start ppm none =>
      if d.job.isNone then some { d with calls := (ppm, false) :: d.calls } else none
  | .start ppm (some tmp) =>
    if d.job.isNone && isTemporary base tmp && (d.fs.live tmp).isNone then
      some { d with fs := d.fs.create tmp [], job := some ⟨ppm, .print, tmp, d.fs.next⟩ }
    else none
  | .proceed => do
    let j ← d.job
    let (fs, stage) ← j.next text base d.fs
    match stage with
    | some stage => some { d with fs := fs, job := some { j with stage := stage } }
    | none => some (d.finish j fs true)
  | .fail written removed => do
    let j ← d.job
    some (d.finish j (j.failed d.fs written removed) false)
  | .sweep now dest name stat ok => some { d with fs := sweepOne base now dest d.fs name stat ok }
  | .kill => some (d.die d.fs)
  | .crash kept torn =>
    if kept.Sublist d.fs.pending then some (d.die (d.fs.crash kept torn)) else none

/-- What the file may hold after some calls: the text of the last one that returned without an
error, or of one after it. -/
def expected (text : K → Bytes) (first : Option Bytes) : List (K × Bool) → List (Option Bytes)
  | [] => [first]
  | (ppm, true) :: _ => [some (text ppm)]
  | (ppm, false) :: calls => some (text ppm) :: expected text first calls

/-- What the file may hold, with the call under way. -/
def DriftFile.expected (text : K → Bytes) (first : Option Bytes) (d : DriftFile K) :
    List (Option Bytes) :=
  d.job.toList.map (fun j => some (text j.ppm)) ++ Drift.expected text first d.calls

/-! ## Names -/

/-- A name with the pattern in front is longer than the destination's. -/
theorem pattern_ne_base {base name : FileName}
    (h : (driftTempPattern base).isPrefixOf name = true) : base ≠ name := by
  rintro rfl
  have hlen := (List.isPrefixOf_iff_prefix.mp h).length_le
  simp only [driftTempPattern, List.length_cons, List.length_append] at hlen
  omega

theorem isTemporary_ne_base {base name : FileName} (h : isTemporary base name = true) :
    base ≠ name :=
  pattern_ne_base (Bool.and_eq_true_iff.mp h).1

theorem swept_ne_base {base name : FileName} (h : swept base name = true) : base ≠ name := by
  rcases Bool.or_eq_true_iff.mp h with h | h
  · exact pattern_ne_base (Bool.and_eq_true_iff.mp h).1
  · rintro rfl
    obtain ⟨hbase, hname⟩ := Bool.and_eq_true_iff.mp h
    rw [of_decide_eq_true hbase] at hname
    exact absurd hname (by decide)

/-! ## One call -/

/-- How far the replacement has come at each system call. -/
def Stage.phase : Stage → Progress
  | .print => .made
  | .sync => .written
  | .close | .chmod | .rename => .forced
  | .openDir | .syncDir => .renamed
  | .closeDir => .settled

variable {text : K → Bytes} {base : FileName} {first : Option Bytes} {fs : Fs FileName Bytes}
  {j : Job K} {d d' : DriftFile K}

/-- What the file may hold once some calls have ended. -/
def past (text : K → Bytes) (first : Option Bytes) (calls : List (K × Bool)) : Set (Option Bytes) :=
  {o | o ∈ expected text first calls}

/-- The invariant: no call is under way, or one has come so far with its replacement. -/
inductive DriftFile.Sound (text : K → Bytes) (base : FileName) (first : Option Bytes) :
    DriftFile K → Prop where
  | idle (fs : Fs FileName Bytes) (calls : List (K × Bool))
      (holds : Holds fs base (past text first calls)) : Sound text base first ⟨fs, none, calls⟩
  | busy (fs : Fs FileName Bytes) (j : Job K) (calls : List (K × Bool)) (ne : base ≠ j.tmp)
      (replacing : Replacing fs base j.tmp j.inode (text j.ppm) (past text first calls)
        j.stage.phase) :
      Sound text base first ⟨fs, some j, calls⟩

theorem past_cons_false (ppm : K) (calls : List (K × Bool)) :
    past text first ((ppm, false) :: calls) = insert (some (text ppm)) (past text first calls) := by
  ext o
  simp [past, expected]

theorem past_cons_true (ppm : K) (calls : List (K × Bool)) :
    past text first ((ppm, true) :: calls) = {some (text ppm)} := by
  ext o
  simp [past, expected]

/-- At every point the file stands for the past calls or for the call under way. -/
theorem DriftFile.Sound.holds (h : d.Sound text base first) :
    Holds d.fs base {o | o ∈ d.expected text first} := by
  cases h with
  | idle fs calls holds => exact holds
  | busy fs j calls ne replacing =>
    have hall := replacing.holds
    rw [← past_cons_false] at hall
    exact hall

/-- The end of the process. -/
theorem DriftFile.Sound.die (h : d.Sound text base first)
    (hfs : ∀ S, Holds d.fs base S → Holds fs base S) : (d.die fs).Sound text base first := by
  have hold := hfs _ h.holds
  obtain ⟨fs₀, job, calls⟩ := d
  cases job with
  | none => exact .idle fs calls hold
  | some j => exact .idle fs ((j.ppm, false) :: calls) hold

/-- A sweep never takes the destination; it may take the temporary of the call under way. -/
theorem sound_sweep (h : d.Sound text base first) (now : ℤ) (dest : Option ℕ) (name : FileName)
    (stat : Option Stat) (ok : Bool) :
    DriftFile.Sound text base first { d with fs := sweepOne base now dest d.fs name stat ok } := by
  have hunlink (hne : base ≠ name) :
      DriftFile.Sound text base first { d with fs := d.fs.unlink name } := by
    cases h with
    | idle fs calls holds => exact .idle _ calls (holds.unlink hne)
    | busy fs j calls ne replacing => exact .busy _ j calls ne (replacing.unlink hne)
  unfold sweepOne
  split_ifs with hr
  · rw [removable, Bool.and_eq_true, Bool.and_eq_true] at hr
    rcases d.fs.remove_cases name ok with heq | heq <;> rw [heq]
    · exact h
    · exact hunlink (swept_ne_base hr.1.1)
  · exact h

/-- A failed system call ends the call. -/
theorem sound_fail {calls : List (K × Bool)}
    (h : DriftFile.Sound text base first ⟨fs, some j, calls⟩) (written : Bytes) (removed : Bool) :
    DriftFile.Sound text base first ⟨j.failed fs written removed, none,
      (j.ppm, false) :: calls⟩ := by
  refine .idle _ _ ?_
  have hold : Holds fs base (past text first ((j.ppm, false) :: calls)) := h.holds
  cases h with
  | busy _ _ _ ne replacing =>
    obtain ⟨ppm, stage, tmp, inode⟩ := j
    cases stage with
    | print =>
      refine ((replacing.tear written).mono ?_).remove ne removed
      rw [past_cons_false]
      exact Set.subset_insert _ _
    | sync => exact hold.remove ne removed
    | close => exact hold.remove ne removed
    | chmod => exact hold.remove ne removed
    | rename => exact hold.remove ne removed
    -- after the replacement nothing is undone
    | openDir => exact hold
    | syncDir => exact hold
    | closeDir => exact hold

/-- A successful system call takes the call one stage further, or ends it. -/
theorem sound_proceed {calls : List (K × Bool)} {fs' : Fs FileName Bytes} {stage : Option Stage}
    (h : DriftFile.Sound text base first ⟨fs, some j, calls⟩)
    (hnext : j.next text base fs = some (fs', stage)) :
    match stage with
    | some s => DriftFile.Sound text base first ⟨fs', some { j with stage := s }, calls⟩
    | none => DriftFile.Sound text base first ⟨fs', none, (j.ppm, true) :: calls⟩ := by
  cases h with
  | busy _ _ _ ne replacing =>
    obtain ⟨ppm, stage, tmp, inode⟩ := j
    cases stage with
    | print => cases hnext; exact .busy _ _ calls ne replacing.write
    | sync => cases hnext; exact .busy _ _ calls ne replacing.sync
    | close => cases hnext; exact .busy _ _ calls ne replacing
    | chmod => cases hnext; exact .busy _ _ calls ne replacing
    | rename =>
      obtain ⟨fs'', hr, heq⟩ := Option.map_eq_some_iff.mp hnext
      cases heq
      exact .busy _ _ calls ne (replacing.rename hr)
    | openDir => cases hnext; exact .busy _ _ calls ne replacing
    | syncDir => cases hnext; exact .busy _ _ calls ne replacing.syncDir
    | closeDir =>
      cases hnext
      cases replacing with
      | settled holds => exact .idle _ _ (past_cons_true ppm calls ▸ holds)

theorem sound_step {e : FileEvent K} (h : d.Sound text base first)
    (hstep : d.step text base e = some d') : d'.Sound text base first := by
  obtain ⟨fs, job, calls⟩ := d
  cases e with
  | start ppm tmp =>
    cases job with
    | some j => cases tmp <;> simp [DriftFile.step] at hstep
    | none =>
      have hold : Holds fs base (past text first calls) := h.holds
      cases tmp with
      | none =>
        cases hstep
        refine .idle _ _ (hold.mono ?_)
        rw [past_cons_false]
        exact Set.subset_insert _ _
      | some tmp =>
        simp only [DriftFile.step] at hstep
        split_ifs at hstep with hc
        cases hstep
        rw [Bool.and_eq_true, Bool.and_eq_true] at hc
        have hne := isTemporary_ne_base hc.1.2
        exact .busy _ _ calls hne (.create hold hne [])
  | proceed =>
    cases job with
    | none => cases hstep
    | some j =>
      obtain ⟨⟨fs', stage⟩, hnext, hlast⟩ := Option.bind_eq_some_iff.mp hstep
      have hsound := sound_proceed h hnext
      cases stage with
      | none => cases hlast; exact hsound
      | some s => cases hlast; exact hsound
  | fail written removed =>
    cases job with
    | none => cases hstep
    | some j => cases hstep; exact sound_fail h written removed
  | sweep now dest name stat ok => cases hstep; exact sound_sweep h now dest name stat ok
  | kill => cases hstep; exact h.die fun S hS => hS
  | crash kept torn =>
    simp only [DriftFile.step] at hstep
    split_ifs at hstep with hc
    cases hstep
    exact h.die fun S hS => hS.crash hc torn

/-! ## Runs -/

/-- A sweep comes to its names one after the other. -/
theorem run_sweep (text : K → Bytes) (base : FileName) (now : ℤ) (lstat : FileName → Option Stat)
    (ok : FileName → Bool) (d : DriftFile K) (names : List FileName) :
    Runs.run (DriftFile.step text base) d
        (names.map fun n => .sweep now (d.fs.live base) n (lstat n) (ok n)) =
      some { d with fs := sweepDriftTemps base now lstat ok d.fs names } := by
  have loop : ∀ (dest : Option ℕ) (names : List FileName) (fs : Fs FileName Bytes),
      Runs.run (DriftFile.step text base) { d with fs := fs }
          (names.map fun n => .sweep now dest n (lstat n) (ok n)) =
        some { d with
          fs := names.foldl (fun fs n => sweepOne base now dest fs n (lstat n) (ok n)) fs } := by
    intro dest names
    induction names with
    | nil => exact fun fs => rfl
    | cons n names ih => exact fun fs => ih _
  exact loop (d.fs.live base) names d.fs

/-- Nothing is under way, and what the directory holds is on the disk. -/
def DriftFile.Settled (d : DriftFile K) : Prop :=
  d.job = none ∧ d.calls = [] ∧ d.fs.pending = [] ∧
    ∀ name i, d.fs.disk name = some i → i < d.fs.next ∧ d.fs.durable i = true

theorem sound_settled (h : d.Settled) : d.Sound text base (d.fs.content base) := by
  obtain ⟨fs, job, calls⟩ := d
  obtain ⟨rfl, rfl, hp, hd⟩ := h
  refine .idle fs [] fun o ho => ?_
  dsimp only at hp hd
  rw [Fs.possible, hp] at ho
  obtain rfl : o = fs.disk base := List.mem_singleton.mp ho
  refine ⟨List.mem_singleton.mpr ?_, fun i hi => hd base i hi⟩
  rw [Fs.content, Fs.live, hp, List.foldl_nil]

/-- **The drift file is whole and durable.**  Whatever system calls fail, and wherever the
process is killed or the power fails, the drift file holds the text of the last call that
returned without an error or of a call after it, or, when none has, what it held at first; and a
crash at that point, whatever it loses of what was not forced, leaves it so. -/
theorem driftFile_whole (text : K → Bytes) (base : FileName) (d₀ d : DriftFile K)
    (es : List (FileEvent K)) (hd₀ : d₀.Settled)
    (hrun : Runs.run (DriftFile.step text base) d₀ es = some d) :
    d.fs.content base ∈ d.expected text (d₀.fs.content base) ∧
      ∀ kept torn, kept.Sublist d.fs.pending →
        (d.fs.crash kept torn).content base ∈ d.expected text (d₀.fs.content base) := by
  have h : d.Sound text base (d₀.fs.content base) := Runs.run_invariant (C := fun _ _ => True)
    (fun _ _ _ hs _ hstep => sound_step hs hstep) (sound_settled hd₀)
    (Runs.along_of_forall (fun _ _ => trivial) _ _) hrun
  exact ⟨h.holds.content, fun kept torn hkept => (h.holds.crash hkept torn).content⟩

/-- An empty state directory. -/
def emptyDrift : DriftFile ℕ := ⟨⟨fun _ => none, [], fun _ => [], fun _ => true, 0⟩, none, []⟩

/-- A first write that returns, and a second one that the power fails on after its rename, which
the crash loses. -/
def cutRun : List (FileEvent ℕ) :=
  let tmp (c : Char) : FileName := driftTempPattern driftName ++ [c]
  [.start 1 (some (tmp '1'))] ++ List.replicate 8 .proceed ++ [.start 2 (some (tmp '2'))] ++
    List.replicate 5 .proceed ++ [.crash [.link (tmp '2') 1] fun _ => []]

/-- After that run the file holds the first text. -/
theorem driftFile_whole_cut :
    ∃ d, Runs.run (DriftFile.step (fun n => List.replicate n 0) driftName) emptyDrift cutRun =
      some d ∧ d.fs.content driftName = some [0] ∧
      d.fs.content driftName ∈ d.expected (fun n => List.replicate n 0) none := by
  have hsettled : emptyDrift.Settled := ⟨rfl, rfl, rfl, fun _ _ h => by cases h⟩
  have h : (Runs.run (DriftFile.step (fun n => List.replicate n 0) driftName) emptyDrift cutRun).map
      (·.fs.content driftName) = some (some [0]) := by decide +kernel
  obtain ⟨d, hd, hcontent⟩ := Option.map_eq_some_iff.mp h
  exact ⟨d, hd, hcontent, (driftFile_whole _ _ emptyDrift d cutRun hsettled hd).1⟩

end Carillon.Drift
