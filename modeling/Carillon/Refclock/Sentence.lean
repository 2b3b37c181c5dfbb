/-
# NMEA sentences

`refclock/nmea_sentence.go`: one line of the receiver's text is checked (its frame, its
checksum, its talker) and read for the time and fix fields that the daemon uses.  Lines
are bytes, as a Go string is.  Each check that fails has its own error, with the data
that its message shows.
-/
import Carillon.Leap.Table

namespace Carillon.Refclock

open Leap (atoi spaceLen)

/-! ## Text -/

/-- The bytes of an ASCII text. -/
def ascii (s : String) : Bytes := s.toList.map Char.toUInt8

/-- A text without the white space it begins with; the next `skip` bytes belong to a
white-space character. -/
def dropSpace : ℕ → Bytes → Bytes
  | _, [] => []
  | skip + 1, _ :: rest => dropSpace skip rest
  | 0, b :: rest =>
    match spaceLen (b :: rest) with
    | 0 => b :: rest
    | n + 1 => dropSpace n rest

/-- A text without the white space it ends with.  No byte inside a character begins a
white-space character, so the text may be looked at from each of its bytes. -/
def dropSpaceRight : Bytes → Bytes
  | [] => []
  | b :: rest => if dropSpace 0 (b :: rest) = [] then [] else b :: dropSpaceRight rest

/-- `strings.TrimSpace`. -/
def trimSpace (line : Bytes) : Bytes := dropSpaceRight (dropSpace 0 line)

/-- `strings.Split` at commas. -/
def splitComma : Bytes → List Bytes
  | [] => [[]]
  | b :: rest =>
    if b = 0x2C then [] :: splitComma rest
    else match splitComma rest with
      | [] => [[b]]
      | field :: fields => (b :: field) :: fields

/-- `strings.Cut` at the first point. -/
def cutPoint (raw : Bytes) : Bytes × Bytes :=
  (raw.takeWhile (· != 0x2E), (raw.dropWhile (· != 0x2E)).drop 1)

/-- `strings.LastIndexByte` of an asterisk. -/
def lastStar : Bytes → Option ℕ
  | [] => none
  | b :: rest =>
    match lastStar rest with
    | some i => some (i + 1)
    | none => if b = 0x2A then some 0 else none

/-- The value of a hexadecimal digit. -/
def hexDigit (b : UInt8) : Option ℕ :=
  if 0x30 ≤ b ∧ b ≤ 0x39 then some (b.toNat - 0x30)
  else if 0x41 ≤ b ∧ b ≤ 0x46 then some (b.toNat - 0x41 + 10)
  else if 0x61 ≤ b ∧ b ≤ 0x66 then some (b.toNat - 0x61 + 10)
  else none

/-- `strconv.ParseUint(s, 16, 8)`. -/
def parseHex (s : Bytes) : Option UInt8 :=
  if s = [] then none
  else match s.foldlM (fun n b => (hexDigit b).map (16 * n + ·)) 0 with
    | some n => if n < 2 ^ 8 then some (UInt8.ofNat n) else none
    | none => none

/-- `parseDigits`. -/
def parseDigits (raw : Bytes) : Option ℤ :=
  if raw.all (fun b => decide (0x30 ≤ b ∧ b ≤ 0x39)) then atoi raw else none

/-! ## Sentences and errors -/

/-- The sentences that are read. -/
inductive SentenceKind where
  | rmc
  | zda
  | gga
  deriving DecidableEq, Repr

/-- `nmeaSentence`. -/
structure Sentence where
  kind : SentenceKind
  timestamp : ℤ
  valid : Bool
  fixQuality : ℤ
  satellites : ℤ
  fractional : Bool
  deriving DecidableEq, Repr

/-- The errors of `parseNMEAClock`. -/
inductive ClockError where
  /-- `must be hhmmss with an optional fraction`. -/
  | shape
  /-- `hour is invalid`. -/
  | hour
  /-- `minute is invalid`. -/
  | minute
  /-- `second is invalid`. -/
  | second
  /-- `leap second 23:59:60 has no representable instant`. -/
  | leapSecond
  /-- `second 60 outside a leap-second boundary`. -/
  | secondSixty
  /-- `fraction is invalid`. -/
  | fraction
  deriving DecidableEq, Repr

/-- The fields that `parseRange` names in its error. -/
inductive RangeField where
  | rmcDay
  | rmcMonth
  | rmcYear
  | zdaDay
  | zdaMonth
  | zdaYear
  | ggaQuality
  | ggaSatellites
  deriving DecidableEq, Repr

/-- The errors of `parseNMEA`, with the data that their messages show. -/
inductive SentenceError where
  /-- `NMEA sentence is empty or too long`. -/
  | length
  /-- `NMEA sentence does not start with '$'`. -/
  | start
  /-- `NMEA checksum is missing or malformed`. -/
  | noChecksum
  /-- `NMEA checksum is malformed`. -/
  | malformedChecksum
  /-- `NMEA checksum mismatch: got %02X want %02X`. -/
  | checksum (got want : UInt8)
  /-- `NMEA sentence identifier is malformed`. -/
  | identifier
  /-- `unsupported NMEA talker %q`. -/
  | talker (raw : Bytes)
  /-- `unsupported NMEA sentence %q`. -/
  | unsupported (raw : Bytes)
  /-- `truncated %s sentence`. -/
  | truncated (kind : SentenceKind)
  /-- `%s time: %w`. -/
  | clock (kind : SentenceKind) (cause : ClockError)
  /-- `%s %q is invalid`. -/
  | range (field : RangeField) (raw : Bytes)
  /-- `RMC date must be ddmmyy`. -/
  | dateShape
  /-- `%s date is not a calendar date`. -/
  | notCalendar (kind : SentenceKind)
  /-- `RMC status %q is not A or V`. -/
  | status (raw : Bytes)
  deriving DecidableEq, Repr

/-! ## Fields -/

/-- `parseRange`. -/
def parseRange (raw : Bytes) (low high : ℤ) (field : RangeField) : Except SentenceError ℤ :=
  match atoi raw with
  | some n => if n < low ∨ high < n then .error (.range field raw) else .ok n
  | none => .error (.range field raw)

/-- A time of day, in the fields of the source. -/
structure ClockTime where
  hour : ℤ
  minute : ℤ
  second : ℤ
  nsec : ℤ
  deriving DecidableEq, Repr

/-- `parseDigits` of a field of the time with an upper bound. -/
def clockField (raw : Bytes) (high : ℤ) (e : ClockError) : Except ClockError ℤ :=
  match parseDigits raw with
  | some n => if high < n then .error e else .ok n
  | none => .error e

/-- The nanoseconds of a fraction: all of its digits are checked, nine are used. -/
def parseFraction (frac : Bytes) : Except ClockError ℤ :=
  if frac = [] then .ok 0
  else match parseDigits frac with
    | none => .error .fraction
    | some _ =>
      match parseDigits (frac.take 9 ++ List.replicate (9 - frac.length) 0x30) with
      | none => .error .fraction
      | some nsec => .ok nsec

/-- `parseNMEAClock`. -/
def parseNMEAClock (raw : Bytes) : Except ClockError ClockTime := do
  let (whole, frac) := cutPoint raw
  if whole.length ≠ 6 then throw .shape
  let hour ← clockField (whole.take 2) 23 .hour
  let minute ← clockField ((whole.drop 2).take 2) 59 .minute
  let second ← clockField (whole.drop 4) 60 .second
  if second = 60 then
    throw (if hour = 23 ∧ minute = 59 then .leapSecond else .secondSixty)
  let nsec ← parseFraction frac
  return { hour, minute, second, nsec }

/-- `time.Date` in UTC. -/
def date (d : Gregorian.Date) (c : ClockTime) : ℤ :=
  midnight d + c.hour * hour + c.minute * minute + c.second * second + c.nsec

/-- `parseRMCDate`. -/
def parseRMCDate (raw : Bytes) : Except SentenceError Gregorian.Date := do
  if raw.length ≠ 6 then throw .dateShape
  let day ← parseRange (raw.take 2) 1 31 .rmcDay
  let month ← parseRange ((raw.drop 2).take 2) 1 12 .rmcMonth
  let yy ← parseRange (raw.drop 4) 0 99 .rmcYear
  let d : Gregorian.Date := ⟨2000 + yy, month, day⟩
  if dateOf (midnight d) ≠ d then throw (.notCalendar .rmc)
  return d

/-! ## Sentences -/

/-- `maxNMEALine`. -/
def maxNMEALine : ℕ := 1024

/-- The time field of a sentence. -/
def parseTime (kind : SentenceKind) (raw : Bytes) : Except SentenceError ClockTime :=
  match parseNMEAClock raw with
  | .ok c => .ok c
  | .error e => .error (.clock kind e)

/-- The `RMC` case of `parseNMEA`. -/
def parseRMC (fields : List Bytes) : Except SentenceError Sentence := do
  if fields.length < 10 then throw (.truncated .rmc)
  let c ← parseTime .rmc (fields.getD 1 [])
  let d ← parseRMCDate (fields.getD 9 [])
  let status := fields.getD 2 []
  if status ≠ ascii "A" ∧ status ≠ ascii "V" then throw (.status status)
  return {
    kind := .rmc
    timestamp := date d c
    valid := status = ascii "A"
    fixQuality := 0
    satellites := 0
    fractional := c.nsec ≠ 0 }

/-- The `ZDA` case of `parseNMEA`. -/
def parseZDA (fields : List Bytes) : Except SentenceError Sentence := do
  if fields.length < 5 then throw (.truncated .zda)
  let c ← parseTime .zda (fields.getD 1 [])
  let day ← parseRange (fields.getD 2 []) 1 31 .zdaDay
  let month ← parseRange (fields.getD 3 []) 1 12 .zdaMonth
  let year ← parseRange (fields.getD 4 []) 2000 9999 .zdaYear
  let d : Gregorian.Date := ⟨year, month, day⟩
  if dateOf (date d c) ≠ d then throw (.notCalendar .zda)
  return {
    kind := .zda
    timestamp := date d c
    valid := true
    fixQuality := 0
    satellites := 0
    fractional := c.nsec ≠ 0 }

/-- The `GGA` case of `parseNMEA`, which has no time. -/
def parseGGA (fields : List Bytes) : Except SentenceError Sentence := do
  if fields.length < 8 then throw (.truncated .gga)
  let quality ← parseRange (fields.getD 6 []) 0 8 .ggaQuality
  let satellites ← parseRange (fields.getD 7 []) 0 99 .ggaSatellites
  return {
    kind := .gga
    timestamp := 0
    valid := 0 < quality
    fixQuality := quality
    satellites := satellites
    fractional := false }

/-- The frame of a sentence: its fields, when the checksum is right. -/
def parseFrame (line : Bytes) : Except SentenceError (List Bytes) := do
  let line := trimSpace line
  if line = [] ∨ maxNMEALine < line.length then throw .length
  if line.head? ≠ some 0x24 then throw .start
  match lastStar line with
  | none => throw .noChecksum
  | some star =>
    if star + 3 ≠ line.length then throw .noChecksum
    match parseHex (line.drop (star + 1)) with
    | none => throw .malformedChecksum
    | some want =>
      let body := (line.take star).drop 1
      let got := body.foldl (· ^^^ ·) 0
      if got ≠ want then throw (.checksum got want)
      return splitComma body

instance lawfulBytes : LawfulBEq Bytes := inferInstance

/-- The talkers that are read. -/
def talkers : List Bytes := ["GP", "GN", "GL", "GA", "BD"].map ascii

/-- `parseNMEA`. -/
def parseNMEA (line : Bytes) : Except SentenceError Sentence := do
  let fields ← parseFrame line
  let identifier := fields.headD []
  if identifier.length ≠ 5 then throw .identifier
  if identifier.take 2 ∉ talkers then throw (.talker (identifier.take 2))
  let kind := identifier.drop 2
  if kind = ascii "RMC" then parseRMC fields
  else if kind = ascii "ZDA" then parseZDA fields
  else if kind = ascii "GGA" then parseGGA fields
  else throw (.unsupported kind)

/-- `sentenceKind`: the kind by its place in the line, before anything is checked. -/
def sentenceKind (line : Bytes) : Bytes :=
  let line := trimSpace line
  if line.length < 6 ∨ line.head? ≠ some 0x24 then [] else (line.drop 3).take 3

end Carillon.Refclock
