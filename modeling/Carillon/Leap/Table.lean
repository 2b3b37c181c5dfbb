/-
# The leap-seconds.list table

`Parse` reads a NIST/IERS leap-seconds.list: `#@` and `#$` stamps for the expiry
and the data update, and one record a line for each value of TAI-UTC.  The model
works on the bytes of the file, splits them into lines and fields as the source's
scanner does, and reports the same errors, each with the data that its message
shows.  What is accepted is well formed (`parse_valid`): the transitions are
strictly increasing midnights of 1 January or 1 July.
-/
import Mathlib.Tactic
import Carillon.Ntp
import Carillon.Time

namespace Carillon

/-- The bytes of a file or of a field. -/
abbrev Bytes := List UInt8

namespace Leap

/-! ## Tables -/

/-- The instant a new TAI-UTC value takes effect and the warning that applies to
the UTC day before it. -/
structure Transition where
  at_ : ℤ
  leap : Ntp.Leap
  deriving DecidableEq, Repr

/-- A leap-seconds.list snapshot.  `baseline` is the first TAI-UTC record, before
the first transition, and `offset` its value. -/
structure Table where
  expiry : ℤ
  updated : ℤ
  transitions : List Transition
  baseline : ℤ
  offset : ℤ
  deriving DecidableEq, Repr

/-- Whether a warning for the transition is active: only during the 24 hours that
precede it. -/
def Transition.warns (tr : Transition) (now : ℤ) : Bool :=
  decide (tr.at_ - day ≤ now) && decide (now < tr.at_)

/-- `Indicator`: the leap indicator that the table gives at an instant. -/
def Table.indicator (t : Table) (now : ℤ) : Ntp.Leap :=
  match t.transitions.find? (·.warns now) with
  | some tr => tr.leap
  | none => .none

/-! ## Fields of a line -/

/-- The number of bytes of the white-space character that a text begins with, or
zero.  White space is what `unicode.IsSpace` accepts, in UTF-8. -/
def spaceLen : Bytes → ℕ
  | [] => 0
  | b :: rest =>
    if (0x09 ≤ b ∧ b ≤ 0x0D) ∨ b = 0x20 then 1
    else match rest with
      | [] => 0
      | c :: rest =>
        if b = 0xC2 ∧ (c = 0x85 ∨ c = 0xA0) then 2
        else match rest with
          | [] => 0
          | d :: _ =>
            if (b = 0xE1 ∧ c = 0x9A ∧ d = 0x80) ∨
                (b = 0xE2 ∧ c = 0x80 ∧ ((0x80 ≤ d ∧ d ≤ 0x8A) ∨ d = 0xA8 ∨ d = 0xA9 ∨ d = 0xAF)) ∨
                (b = 0xE2 ∧ c = 0x81 ∧ d = 0x9F) ∨ (b = 0xE3 ∧ c = 0x80 ∧ d = 0x80) then 3
            else 0

/-- A field that has ended, unless it is empty. -/
def flush : Bytes → List Bytes
  | [] => []
  | cur => [cur]

/-- The fields of a text, where `cur` has been read of the current field and the
next `skip` bytes belong to a white-space character. -/
def fieldsFrom : ℕ → Bytes → Bytes → List Bytes
  | _, cur, [] => flush cur
  | skip + 1, cur, _ :: rest => fieldsFrom skip cur rest
  | 0, cur, b :: rest =>
    match spaceLen (b :: rest) with
    | 0 => fieldsFrom 0 (cur ++ [b]) rest
    | n + 1 => flush cur ++ fieldsFrom n [] rest

/-- `strings.Fields`. -/
def fields (line : Bytes) : List Bytes := fieldsFrom 0 [] line

/-- The lines of a text, as the scanner splits it: a last line without a newline
counts unless it is empty. -/
def splitLines : Bytes → List Bytes
  | [] => []
  | b :: rest =>
    if b = 0x0A then [] :: splitLines rest
    else match splitLines rest with
      | [] => [[b]]
      | line :: lines => (b :: line) :: lines

/-! ## Numbers -/

/-- The value of a string of decimal digits. -/
def digits (s : Bytes) : Option ℕ :=
  s.foldlM (fun n b => if 0x30 ≤ b ∧ b ≤ 0x39 then some (10 * n + (b.toNat - 0x30)) else none) 0

/-- `strconv.ParseUint(s, 10, 64)`. -/
def parseUint (s : Bytes) : Option ℕ :=
  if s = [] then none
  else match digits s with
    | some n => if n < 2 ^ 64 then some n else none
    | none => none

/-- `strconv.Atoi`: an optional sign before the digits, within the range of a
64-bit integer. -/
def atoi (s : Bytes) : Option ℤ :=
  match s with
  | [] => none
  | b :: rest =>
    let (negative, s) := if b = 0x2D then (true, rest) else (false, if b = 0x2B then rest else s)
    if s = [] then none
    else match digits s with
      | some n =>
        if negative then if n ≤ 2 ^ 63 then some (-n) else none
        else if n < 2 ^ 63 then some n else none
      | none => none

/-! ## Errors -/

/-- The errors of `Parse`, with the data that their messages show. -/
inductive ParseError where
  /-- `NTP timestamp %q is invalid`. -/
  | timestamp (raw : Bytes)
  /-- `leap: date %d is outside 1900..9999`. -/
  | date (seconds : ℕ)
  /-- `line %d: %s timestamp is malformed`. -/
  | malformedStamp (line : ℕ) (field : Bytes)
  /-- `line %d: %w`, the error of a stamp. -/
  | stamp (line : ℕ) (cause : ParseError)
  /-- `line %d: duplicate #@ expiry`. -/
  | duplicateExpiry (line : ℕ)
  /-- `line %d: duplicate #$ update`. -/
  | duplicateUpdate (line : ℕ)
  /-- `line %d: transition record is malformed`. -/
  | malformedRecord (line : ℕ)
  /-- `line %d: unexpected transition fields`. -/
  | unexpectedFields (line : ℕ)
  /-- `line %d: transition: %w`. -/
  | transition (line : ℕ) (cause : ParseError)
  /-- `line %d: TAI-UTC offset %q is invalid`. -/
  | offset (line : ℕ) (raw : Bytes)
  /-- `line %d: transition %s is not midnight on January 1 or July 1 UTC`. -/
  | notMidnight (line : ℕ) (at_ : ℤ)
  /-- `read: bufio.Scanner: token too long`. -/
  | tooLong
  /-- `missing #@ expiry timestamp`. -/
  | missingExpiry
  /-- `fewer than two transition records`. -/
  | tooFew
  /-- `#@ expiry is not after the final transition`. -/
  | expiryBeforeTransition
  /-- `#@ expiry is not after the #$ update timestamp`. -/
  | expiryBeforeUpdate
  /-- `line %d: transitions are not strictly increasing`. -/
  | notIncreasing (line : ℕ)
  /-- `line %d: TAI-UTC offset changes by %d, not one second`. -/
  | delta (line : ℕ) (delta : ℤ)
  deriving DecidableEq, Repr

/-! ## Parsing -/

/-- Seconds from the zero instant to the NTP epoch, 1 January 1900. -/
def ntpEpoch : ℤ := 59926608000

/-- `Date`: the instant that a number of seconds since 1900 names, up to the end of
the year 9999. -/
def date (seconds : ℕ) : Except ParseError ℤ :=
  if seconds = 0 ∨ 255611289599 < seconds then .error (.date seconds)
  else .ok ((seconds + ntpEpoch) * second)

/-- `parseNTPSeconds`. -/
def parseNTPSeconds (raw : Bytes) : Except ParseError ℤ :=
  match parseUint raw with
  | none => .error (.timestamp raw)
  | some seconds => date seconds

/-- A record of the list: a TAI-UTC offset, the instant it takes effect and the
number of its line. -/
structure ListRecord where
  at_ : ℤ
  offset : ℤ
  line : ℕ
  deriving DecidableEq, Repr

/-- What the lines read so far have set; a stamp that is not set is zero. -/
structure Scan where
  expiry : ℤ
  updated : ℤ
  records : List ListRecord
  deriving DecidableEq, Repr

/-- The seconds since midnight UTC. -/
def clockOf (t : ℤ) : ℤ := t % day / second

/-- A line that begins with `#@` or `#$`.  Its first field is that mark alone. -/
def scanStamp (lineNo : ℕ) (fs : List Bytes) (s : Scan) : Except ParseError Scan :=
  match fs with
  | [mark, raw] =>
    if mark = [0x23, 0x40] ∨ mark = [0x23, 0x24] then
      match parseNTPSeconds raw with
      | .error e => .error (.stamp lineNo e)
      | .ok stamp =>
        if mark = [0x23, 0x40] then
          if s.expiry ≠ 0 then .error (.duplicateExpiry lineNo) else .ok { s with expiry := stamp }
        else
          if s.updated ≠
            0 then .error (.duplicateUpdate lineNo) else .ok { s with updated := stamp }
    else .error (.malformedStamp lineNo mark)
  | _ => .error (.malformedStamp lineNo fs.headI)

/-- A line that holds a record. -/
def scanRecord (lineNo : ℕ) (fs : List Bytes) (s : Scan) : Except ParseError Scan :=
  match fs with
  | f₀ :: f₁ :: rest =>
    if rest ≠ [] ∧ ¬ [0x23] <+: rest.headI then .error (.unexpectedFields lineNo)
    else match parseNTPSeconds f₀ with
      | .error e => .error (.transition lineNo e)
      | .ok at_ =>
        match atoi f₁ with
        | none => .error (.offset lineNo f₁)
        | some offset =>
          if offset < 1 ∨ 255 < offset then .error (.offset lineNo f₁)
          else if clockOf at_ ≠ 0 ∨ (dateOf at_).day ≠ 1 ∨
              ((dateOf at_).month ≠ 1 ∧ (dateOf at_).month ≠ 7) then
            .error (.notMidnight lineNo at_)
          else .ok { s with records := s.records ++ [⟨at_, offset, lineNo⟩] }
  | _ => .error (.malformedRecord lineNo)

/-- One line.  The source trims the line first; what is left begins with its first
field, so the marks are looked for there. -/
def scanLine (lineNo : ℕ) (line : Bytes) (s : Scan) : Except ParseError Scan :=
  match fields line with
  | [] => .ok s
  | f₀ :: rest =>
    if [0x23, 0x40] <+: f₀ ∨ [0x23, 0x24] <+: f₀ then scanStamp lineNo (f₀ :: rest) s
    else if [0x23] <+: f₀ then .ok s
    else scanRecord lineNo (f₀ :: rest) s

/-- The scanner's limit on a line, its buffer of `64<<10` bytes. -/
def maxLine : ℕ := 65536

/-- The lines from number `lineNo` on.  A line that fills the buffer ends the scan. -/
def scanLines : ℕ → List Bytes → Scan → Except ParseError Scan
  | _, [], s => .ok s
  | lineNo, line :: lines, s =>
    if maxLine ≤ line.length then .error .tooLong
    else match scanLine lineNo line s with
      | .error e => .error e
      | .ok s => scanLines (lineNo + 1) lines s

/-- The transition between two consecutive records. -/
def transition (prev cur : ListRecord) : Except ParseError Transition :=
  if cur.at_ ≤ prev.at_ then .error (.notIncreasing cur.line)
  else if cur.offset - prev.offset = 1 then .ok ⟨cur.at_, .insert⟩
  else if cur.offset - prev.offset = -1 then .ok ⟨cur.at_, .delete⟩
  else .error (.delta cur.line (cur.offset - prev.offset))

/-- The transitions that follow a record. -/
def transitionsFrom : ListRecord → List ListRecord → Except ParseError (List Transition)
  | _, [] => .ok []
  | prev, cur :: rest =>
    match transition prev cur with
    | .error e => .error e
    | .ok tr =>
      match transitionsFrom cur rest with
      | .error e => .error e
      | .ok trs => .ok (tr :: trs)

/-- `Parse`. -/
def parse (data : Bytes) : Except ParseError Table :=
  match scanLines 1 (splitLines data) ⟨0, 0, []⟩ with
  | .error e => .error e
  | .ok s =>
    if s.expiry = 0 then .error .missingExpiry
    else match s.records with
      | first :: second :: rest =>
        if s.expiry ≤ ((second :: rest).getLast (List.cons_ne_nil second rest)).at_ then
          .error .expiryBeforeTransition
        else if s.updated ≠ 0 ∧ s.expiry ≤ s.updated then .error .expiryBeforeUpdate
        else match transitionsFrom first (second :: rest) with
          | .error e => .error e
          | .ok transitions => .ok ⟨s.expiry, s.updated, transitions, first.at_, first.offset⟩
      | _ => .error .tooFew

/-! ## What is accepted is well formed -/

/-- A well-formed table. -/
structure Table.Valid (t : Table) : Prop where
  increasing : t.transitions.Pairwise (fun x y => x.at_ < y.at_)
  boundary : ∀ tr ∈ t.transitions, IsLeapBoundary tr.at_
  direction : ∀ tr ∈ t.transitions, tr.leap = .insert ∨ tr.leap = .delete
  after_baseline : ∀ tr ∈ t.transitions, t.baseline < tr.at_
  before_expiry : ∀ tr ∈ t.transitions, tr.at_ < t.expiry
  updated_lt : t.updated ≠ 0 → t.updated < t.expiry

/-- The instants that `Date` gives are whole seconds. -/
theorem date_ok {seconds : ℕ} {t : ℤ} (h : date seconds = .ok t) :
    t = (seconds + ntpEpoch) * second := by
  unfold date at h
  split_ifs at h
  exact (Except.ok.inj h).symm

/-- A time stamp that parses is a count of seconds since 1900. -/
theorem parseNTPSeconds_ok {raw : Bytes} {t : ℤ} (h : parseNTPSeconds raw = .ok t) :
    ∃ seconds : ℕ, t = (seconds + ntpEpoch) * second := by
  unfold parseNTPSeconds at h
  split at h
  · cases h
  · exact ⟨_, date_ok h⟩

/-- A whole second at midnight of the first of January or July is a leap boundary. -/
theorem isLeapBoundary_of_checks {t k : ℤ} (hk : t = k * second) (hc : clockOf t = 0)
    (hd : (dateOf t).day = 1) (hm : (dateOf t).month = 1 ∨ (dateOf t).month = 7) :
    IsLeapBoundary t := by
  have hmid : t = midnight (dateOf t) := by
    rw [midnight_date]
    simp only [clockOf, second, day, hour, minute] at hc hk ⊢
    omega
  generalize dateOf t = d at hd hm hmid
  obtain ⟨y, m, e⟩ := d
  obtain rfl : e = 1 := hd
  rcases hm with rfl | rfl
  · exact ⟨y, .inl hmid⟩
  · exact ⟨y, .inr hmid⟩

/-- A stamp that is not set, or one that `Date` gave. -/
def IsStamp (t : ℤ) : Prop := t = 0 ∨ ∃ seconds, date seconds = .ok t

theorem parseNTPSeconds_stamp {raw : Bytes} {t : ℤ} (h : parseNTPSeconds raw = .ok t) :
    IsStamp t := by
  unfold parseNTPSeconds at h
  split at h
  · cases h
  · exact .inr ⟨_, h⟩

variable {lineNo : ℕ} {s s' : Scan}

/-- What a stamp line sets. -/
theorem scanStamp_ok {fs : List Bytes} (h : scanStamp lineNo fs s = .ok s') :
    ∃ stamp, IsStamp stamp ∧
      (s' = { s with expiry := stamp } ∨ s' = { s with updated := stamp }) := by
  unfold scanStamp at h
  repeat' split at h
  all_goals try cases h
  · exact ⟨_, parseNTPSeconds_stamp (by assumption), .inl rfl⟩
  · exact ⟨_, parseNTPSeconds_stamp (by assumption), .inr rfl⟩

/-- What a record line adds. -/
theorem scanRecord_ok {fs : List Bytes} (h : scanRecord lineNo fs s = .ok s') :
    ∃ r : ListRecord, IsLeapBoundary r.at_ ∧ (1 ≤ r.offset ∧ r.offset ≤ 255) ∧
      s' = { s with records := s.records ++ [r] } := by
  unfold scanRecord at h
  repeat' split at h
  all_goals try cases h
  rename_i hp _ _ _ hoffset hmid
  obtain ⟨seconds, hsec⟩ := parseNTPSeconds_ok hp
  push Not at hmid hoffset
  obtain ⟨hc, hd, hm⟩ := hmid
  refine ⟨⟨_, _, lineNo⟩, ?_, ?_, rfl⟩
  · exact isLeapBoundary_of_checks hsec hc hd (by tauto)
  · exact hoffset

/-- What a line may do: nothing, set a stamp or add a record. -/
theorem scanLine_ok {line : Bytes} (h : scanLine lineNo line s = .ok s') :
    s' = s ∨
      (∃ stamp, IsStamp stamp ∧
        (s' = { s with expiry := stamp } ∨ s' = { s with updated := stamp })) ∨
      ∃ r : ListRecord, IsLeapBoundary r.at_ ∧ (1 ≤ r.offset ∧ r.offset ≤ 255) ∧
        s' = { s with records := s.records ++ [r] } := by
  unfold scanLine at h
  split at h
  · cases h
    exact .inl rfl
  · split_ifs at h
    · exact .inr (.inl (scanStamp_ok h))
    · cases h
      exact .inl rfl
    · exact .inr (.inr (scanRecord_ok h))

/-- What every line keeps, the whole scan keeps. -/
theorem scanLines_invariant {P : Scan → Prop}
    (hline : ∀ lineNo line s s', scanLine lineNo line s = .ok s' → P s → P s')
    {lines : List Bytes} :
    ∀ {lineNo : ℕ} {s s' : Scan}, scanLines lineNo lines s = .ok s' → P s → P s' := by
  induction lines with
  | nil => intro lineNo s s' h hs; cases h; exact hs
  | cons line lines ih =>
    intro lineNo s s' h hs
    unfold scanLines at h
    split_ifs at h
    split at h
    · cases h
    · rename_i hl
      exact ih h (hline _ _ _ _ hl hs)

/-- The records read so far are leap boundaries. -/
def Scan.Boundaries (s : Scan) : Prop := ∀ r ∈ s.records, IsLeapBoundary r.at_

/-- One line keeps the records leap boundaries. -/
theorem scanLine_boundaries {line : Bytes} (h : scanLine lineNo line s = .ok s')
    (hs : s.Boundaries) : s'.Boundaries := by
  obtain rfl | ⟨stamp, -, rfl | rfl⟩ | ⟨r, hr, -, rfl⟩ := scanLine_ok h
  · exact hs
  · exact hs
  · exact hs
  · exact List.forall_mem_append.mpr ⟨hs, List.forall_mem_singleton.mpr hr⟩

/-- The stamps read so far are dates. -/
def Scan.Stamped (s : Scan) : Prop := IsStamp s.expiry ∧ IsStamp s.updated

/-- A line keeps the dates stamps. -/
theorem scanLine_stamped {line : Bytes} (h : scanLine lineNo line s = .ok s') (hs : s.Stamped) :
    s'.Stamped := by
  obtain rfl | ⟨stamp, hstamp, rfl | rfl⟩ | ⟨r, -, -, rfl⟩ := scanLine_ok h
  · exact hs
  · exact ⟨hstamp, hs.2⟩
  · exact ⟨hs.1, hstamp⟩
  · exact hs

/-- The dates of an accepted table are dates of `Date`. -/
theorem parse_stamped {data : Bytes} {t : Table} (h : parse data = .ok t) :
    (∃ seconds, date seconds = .ok t.expiry) ∧ IsStamp t.updated := by
  unfold parse at h
  repeat' split at h
  all_goals try cases h
  rename_i s hscan hexpiry _ _ _ _ _ _ _ _ _ _
  obtain ⟨h1, h2⟩ :=
    scanLines_invariant (fun _ _ _ _ => scanLine_stamped) hscan ⟨.inl rfl, .inl rfl⟩
  exact ⟨h1.resolve_left hexpiry, h2⟩

/-- A transition is later than the record before it, and adds or removes a second. -/
theorem transition_ok {prev cur : ListRecord} {tr : Transition} (h : transition prev cur = .ok tr) :
    prev.at_ < cur.at_ ∧ tr.at_ = cur.at_ ∧ (tr.leap = .insert ∨ tr.leap = .delete) := by
  unfold transition at h
  split_ifs at h <;> cases h <;> refine ⟨by omega, rfl, by simp⟩

/-- The transitions are at the instants of the records after the first, which
increase, and each has a direction. -/
theorem transitionsFrom_ok {rest : List ListRecord} :
    ∀ {prev : ListRecord} {trs : List Transition}, transitionsFrom prev rest = .ok trs →
      trs.map (·.at_) = rest.map (·.at_) ∧
      (prev :: rest).Pairwise (fun x y => x.at_ < y.at_) ∧
      ∀ tr ∈ trs, tr.leap = .insert ∨ tr.leap = .delete := by
  induction rest with
  | nil => intro prev trs h; cases h; simp
  | cons cur rest ih =>
    intro prev trs h
    unfold transitionsFrom at h
    split at h
    · cases h
    · rename_i htr
      split at h
      · cases h
      · rename_i hrest
        cases h
        obtain ⟨hlt, hat, hdir⟩ := transition_ok htr
        obtain ⟨hmap, hpw, hdirs⟩ := ih hrest
        refine ⟨by simp [hat, hmap], ?_, ?_⟩
        · -- the new record is before `cur`, and `cur` before all that follow
          rw [List.pairwise_cons] at hpw ⊢
          refine ⟨?_, List.pairwise_cons.mpr hpw⟩
          intro r hr
          rcases List.mem_cons.mp hr with rfl | hr
          · exact hlt
          · exact hlt.trans (hpw.1 r hr)
        · intro tr' htr'
          rcases List.mem_cons.mp htr' with rfl | htr'
          · exact hdir
          · exact hdirs tr' htr'

/-- Every table that `Parse` returns is well formed. -/
theorem parse_valid {data : Bytes} {t : Table} (h : parse data = .ok t) : t.Valid := by
  unfold parse at h
  repeat' split at h
  all_goals try cases h
  rename_i s hscan _ _ first next rest hrec hexp hupd _ transitions htrs
  obtain ⟨hmap, hpw, hdir⟩ := transitionsFrom_ok htrs
  rw [List.pairwise_cons] at hpw
  obtain ⟨hfirst, hpw⟩ := hpw
  have hbound := scanLines_invariant (fun _ _ _ _ => scanLine_boundaries) hscan
    (by simp [Scan.Boundaries])
  -- a transition is at the instant of a record after the first
  have hmem : ∀ tr ∈ transitions, ∃ r ∈ next :: rest, r.at_ = tr.at_ := by
    intro tr htr
    exact List.mem_map.mp (hmap ▸ List.mem_map_of_mem htr)
  refine ⟨?_, ?_, hdir, ?_, ?_, fun hu => not_le.mp fun hle => hupd ⟨hu, hle⟩⟩
  · have h := List.pairwise_map.mpr hpw
    rw [← hmap] at h
    exact List.pairwise_map.mp h
  · intro tr htr
    obtain ⟨r, hr, he⟩ := hmem tr htr
    rw [← he]
    exact hbound r (by rw [hrec]; exact List.mem_cons_of_mem _ hr)
  · intro tr htr
    obtain ⟨r, hr, he⟩ := hmem tr htr
    exact he ▸ hfirst r hr
  · intro tr htr
    obtain ⟨r, hr, he⟩ := hmem tr htr
    have hlast := (hpw.imp le_of_lt).rel_getLast_of_rel_getLast_getLast hr le_rfl
    rw [← he]
    exact hlast.trans_lt (not_le.mp hexp)

/-- The transition a table warns of is at the first midnight after the instant. -/
theorem Table.Valid.indicator_mem {t : Table} (hv : t.Valid) {now : ℤ}
    (h : t.indicator now ≠ .none) : ⟨nextMidnight now, t.indicator now⟩ ∈ t.transitions := by
  unfold Table.indicator at h ⊢
  split at h
  case h_1 tr hfind =>
    have hmem := List.mem_of_find?_eq_some hfind
    have hwarns := List.find?_some hfind
    unfold Transition.warns at hwarns
    rw [Bool.and_eq_true, decide_eq_true_eq, decide_eq_true_eq] at hwarns
    have hnext : nextMidnight now = tr.at_ := by
      obtain ⟨y, hy | hy⟩ := hv.boundary tr hmem <;>
      · rw [hy, midnight] at hwarns ⊢
        exact nextMidnight_eq_of_window hwarns.1 hwarns.2
    rw [hnext]
    exact hmem
  case h_2 => exact absurd rfl h

end Leap

end Carillon
