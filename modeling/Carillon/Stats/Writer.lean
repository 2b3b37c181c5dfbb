/-
# The statistics writer

`stats/writer.go`: rows go to one file a day and kind, in a directory named after the UTC day of
the row, and at each rotation the day directories that are older than `keep_days` are removed.
The age is counted from the horizon, the latest time of a snapshot that was SYNCED.

A `time.Time` has a location here: the offset from UTC, in seconds, that is in force at a second.
`Date` and `AddDate` count seconds in 64 bits and wrap.  What the file system refuses is decided
by `Faults`, for each row anew.
-/
import Carillon.Discipline.Select
import Carillon.Leap.Table
import Carillon.Lib.FileTree

namespace Carillon.Stats

open Discipline (State)
open FileTree (Node)
open Gregorian (Date)

/-! ## Times with a location -/

/-- `time.Location`: the offset from UTC at each second. -/
structure Location where
  lookup : ℤ → ℤ

/-- `time.UTC`. -/
def utc : Location := ⟨fun _ => 0⟩

/-- `time.Time`, with its location. -/
structure LocalTime where
  instant : ℤ
  loc : Location

/-- The number of the day in the calendar of the location. -/
def LocalTime.localDay (t : LocalTime) : ℤ :=
  (t.instant + t.loc.lookup (t.instant / second) * second) / day

/-- `Year`, `Month` and `Day`. -/
def LocalTime.date (t : LocalTime) : Date := Gregorian.civil t.localDay

/-- The number of the day in UTC. -/
def utcDay (t : ℤ) : ℤ := t / day

/-- `time.Date` of a date at zero hours, in UTC. -/
def dateTime (d : Date) : ℤ := (Gregorian.dayNumber d * 86400).bmod (2 ^ 64) * second

/-- `AddDate(0, 0, days)`. -/
def addDate (t : ℤ) (days : ℤ) : ℤ := dateTime { dateOf t with day := (dateOf t).day + days }

/-! ## The names of the directories -/

/-- The last decimal digit of a number. -/
def digit (n : ℕ) : UInt8 := UInt8.ofNat (0x30 + n % 10)

/-- `appendInt`: a number in decimal digits, with zeros before it up to a width. -/
def appendInt (width : ℕ) (x : ℤ) : Bytes :=
  let u := x.natAbs
  (if x < 0 then [0x2D] else []) ++
    if width = 2 ∧ u < 100 then [digit (u / 10), digit u]
    else if width = 4 ∧ u < 10000 then [digit (u / 1000), digit (u / 100), digit (u / 10), digit u]
    else ((Nat.toDigits 10 u).map Char.toUInt8).leftpad width 0x30

/-- `Format(time.DateOnly)`. -/
def formatDate (d : Date) : Bytes :=
  appendInt 4 d.year ++ [0x2D] ++ appendInt 2 d.month ++ [0x2D] ++ appendInt 2 d.day

/-- The directory of a day. -/
def dayDir (d : Date) : List Bytes := [appendInt 4 d.year, appendInt 2 d.month, appendInt 2 d.day]

/-- `time.Parse(time.DateOnly, value)`. -/
def parseDate : Bytes → Option Date
  | [y₁, y₂, y₃, y₄, dash₁, m₁, m₂, dash₂, d₁, d₂] =>
    if dash₁ = 0x2D ∧ dash₂ = 0x2D then do
      let y ← Leap.digits [y₁, y₂, y₃, y₄]
      let m ← Leap.digits [m₁, m₂]
      let d ← Leap.digits [d₁, d₂]
      if Date.Valid ⟨y, m, d⟩ then some ⟨y, m, d⟩ else none
    else none
  | _ => none

/-- `fourDigits`. -/
def fourDigits (s : Bytes) : Bool :=
  s.length = 4 && s.all fun b => 0x30 ≤ b && b ≤ 0x39

/-! ## Pruning -/

/-- The files and directories below the directory of the recorder. -/
abbrev Archive := List (Node Bytes)

/-- What the file system refuses while one row is written. -/
structure Faults where
  close : Bool
  mkdir : Option ℕ
  readDir : List Bytes → Bool
  removeAll : List Bytes → Bool
  removeIfEmpty : List Bytes → Bool
  openFile : Bool
  header : Bool
  write : Bool

/-- Nothing is refused. -/
def noFaults : Faults where
  close := false
  mkdir := none
  readDir _ := false
  removeAll _ := false
  removeIfEmpty _ := false
  openFile := false
  header := false
  write := false

/-- `removeIfEmpty`. -/
def removeIfEmpty (io : Faults) (dir : List Bytes) (t : Archive) : Archive :=
  if io.removeIfEmpty dir then t else FileTree.removeEmpty dir t

/-- The date that the names of a day directory give. -/
def dayName (y m d : Bytes) : Option Date := parseDate (y ++ [0x2D] ++ m ++ [0x2D] ++ d)

/-- One entry of a month directory. -/
def pruneDay (io : Faults) (cutoff : ℤ) (y m : Bytes) (t : Archive) (d : Bytes × Bool) : Archive :=
  if d.2 = false ∨ d.1.length ≠ 2 then t
  else match dayName y m d.1 with
    | none => t
    | some date =>
      if dateTime date < cutoff then FileTree.removeAll io.removeAll [y, m, d.1] t else t

/-- One entry of a year directory. -/
def pruneMonth (io : Faults) (cutoff : ℤ) (y : Bytes) (t : Archive) (m : Bytes × Bool) : Archive :=
  if m.2 = false ∨ m.1.length ≠ 2 then t
  else if io.readDir [y, m.1] then t
  else removeIfEmpty io [y, m.1]
    ((FileTree.entries t [y, m.1]).foldl (pruneDay io cutoff y m.1) t)

/-- One entry of the directory of the recorder. -/
def pruneYear (io : Faults) (cutoff : ℤ) (t : Archive) (y : Bytes × Bool) : Archive :=
  if y.2 = false ∨ fourDigits y.1 = false then t
  else if io.readDir [y.1] then t
  else removeIfEmpty io [y.1] ((FileTree.entries t [y.1]).foldl (pruneMonth io cutoff y.1) t)

/-- The midnight before which a day is too old: `keep_days` before the date of `at_`. -/
def cutoff (keepDays : ℤ) (at_ : LocalTime) : ℤ := addDate (dateTime at_.date) (-keepDays)

/-- `prune`. -/
def prune (io : Faults) (keepDays : ℤ) (at_ : LocalTime) (t : Archive) : Archive :=
  if keepDays ≤ 0 then t
  else if io.readDir [] then t
  else (FileTree.entries t []).foldl (pruneYear io (cutoff keepDays at_)) t

/-! ## The recorder -/

/-- `engine.Status`: what the retention reads of a snapshot. -/
structure Snapshot where
  state : State
  now : LocalTime

/-- `Recorder`: the day of the open file of each kind, the horizon, and the files. -/
structure Recorder where
  keepDays : ℤ
  files : List (Bytes × Bytes)
  horizon : Option LocalTime
  archive : Archive

/-- `New`. -/
def Recorder.new (keepDays : ℤ) (archive : Archive) : Recorder := ⟨keepDays, [], none, archive⟩

/-- `noteHorizon`. -/
def Recorder.noteHorizon (r : Recorder) (st : Snapshot) : Recorder :=
  if st.state ≠ .synced ∨ st.now.instant = 0 then r
  else match r.horizon with
    | none => { r with horizon := some st.now }
    | some h => if h.instant < st.now.instant then { r with horizon := some st.now } else r

/-- `pruneTrusted`. -/
def Recorder.pruneTrusted (io : Faults) (r : Recorder) : Recorder :=
  match r.horizon with
  | none => r
  | some h => { r with archive := prune io r.keepDays h r.archive }

/-- `closeFiles`. -/
def Recorder.closeFiles (r : Recorder) : Recorder := { r with files := [] }

/-- The archive once `MkdirAll` has made the directory of a day, or some of it. -/
def Recorder.made (io : Faults) (r : Recorder) (d : Date) : Archive :=
  match io.mkdir with
  | none => FileTree.mkdirAll (dayDir d) r.archive
  | some levels => FileTree.mkdirAll ((dayDir d).take levels) r.archive

/-- The part of `file` that opens a new file, and whether it does. -/
def Recorder.rotate (io : Faults) (r : Recorder) (kind : Bytes) (d : Date) : Recorder × Bool :=
  let r := { r with archive := r.made io d }
  if io.mkdir.isSome then (r, false)
  else
    let r := r.pruneTrusted io
    -- the directory may have been pruned just now
    if io.openFile ∨ ⟨dayDir d, true⟩ ∉ r.archive then (r, false)
    else
      let r := { r with
        archive := FileTree.create (dayDir d ++ [kind ++ [0x2E, 0x74, 0x73, 0x76]]) r.archive }
      if io.header then (r, false)
      else ({ r with files := (kind, formatDate d) :: r.files }, true)

/-- `file`, at an instant in UTC. -/
def Recorder.file (io : Faults) (r : Recorder) (kind : Bytes) (at_ : ℤ) : Recorder × Bool :=
  match r.files.lookup kind with
  | none => r.rotate io kind (dateOf at_)
  | some old =>
    if old = formatDate (dateOf at_) then (r, true)
    else if io.close then (r, false)
    else { r with files := r.files.filter fun f => f.1 ≠ kind }.rotate io kind (dateOf at_)

/-- What the recorder is given: a snapshot, or a row of some kind; or its files are closed. -/
inductive Event where
  | snapshot (st : Snapshot)
  | row (io : Faults) (kind : Bytes) (at_ : ℤ)
  | close

/-- `write`: after an error all files are closed. -/
def Recorder.write (io : Faults) (r : Recorder) (kind : Bytes) (at_ : ℤ) : Recorder :=
  let (r, ok) := r.file io kind at_
  if ok ∧ ¬io.write then r else r.closeFiles

def Recorder.step (r : Recorder) : Event → Option Recorder
  | .snapshot st => some (r.noteHorizon st)
  | .row io kind at_ => some (r.write io kind at_)
  | .close => some r.closeFiles

end Carillon.Stats
