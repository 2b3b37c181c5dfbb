/-
# What a leap-seconds.list says

An accepted list is read back from its table: the transitions are the changes of TAI-UTC
between its records, and the indicator at an instant is that of the first transition after it,
if that is less than a day away.

Blank lines and comments say nothing.  Put anywhere into a list, they change only the numbers
of the lines that an error names; but a line that fills the scanner's buffer is an error, also
where it is a comment.
-/
import Carillon.Leap.Object

namespace Carillon.Leap

/-! ## The offsets -/

/-- The change of TAI-UTC at a transition. -/
def Transition.delta (tr : Transition) : ℤ :=
  match tr.leap with
  | .insert => 1
  | .delete => -1
  | .none | .unsync => 0

/-- The instants of the transitions with the offsets that take effect there. -/
def offsetsFrom (offset : ℤ) : List Transition → List (ℤ × ℤ)
  | [] => []
  | tr :: trs => (tr.at_, offset + tr.delta) :: offsetsFrom (offset + tr.delta) trs

/-- The values of TAI-UTC that the table stands for. -/
def Table.offsets (t : Table) : List (ℤ × ℤ) :=
  (t.baseline, t.offset) :: offsetsFrom t.offset t.transitions

/-- A transition carries the change of the offset at its record. -/
theorem transition_delta {prev cur : ListRecord} {tr : Transition}
    (h : transition prev cur = .ok tr) :
    tr.at_ = cur.at_ ∧ cur.offset = prev.offset + tr.delta := by
  unfold transition at h
  split_ifs at h <;> cases h <;> refine ⟨rfl, ?_⟩
  · show _ = _ + (1 : ℤ)
    omega
  · show _ = _ + (-1 : ℤ)
    omega

/-- The offsets add up to those of the records. -/
theorem transitionsFrom_offsets {rest : List ListRecord} :
    ∀ {prev : ListRecord} {trs : List Transition}, transitionsFrom prev rest = .ok trs →
      rest.map (fun r => (r.at_, r.offset)) = offsetsFrom prev.offset trs := by
  induction rest with
  | nil =>
    intro prev trs h
    cases h
    rfl
  | cons cur rest ih =>
    intro prev trs h
    unfold transitionsFrom at h
    split at h
    · cases h
    · rename_i tr htr
      split at h
      · cases h
      · rename_i trs hrest
        cases h
        obtain ⟨hat, hoffset⟩ := transition_delta htr
        rw [List.map_cons, ih hrest, offsetsFrom, hat, ← hoffset]

/-- The part of `Parse` after the scan. -/
def Scan.table (s : Scan) : Except ParseError Table :=
  if s.expiry = 0 then .error .missingExpiry
  else match s.records with
    | first :: second :: rest =>
      if s.expiry ≤ ((second :: rest).getLast (List.cons_ne_nil second rest)).at_ then
        .error .expiryBeforeTransition
      else if s.updated ≠ 0 ∧ s.expiry ≤ s.updated then .error .expiryBeforeUpdate
      else match transitionsFrom first (second :: rest) with
        | .error e => .error e
        | .ok transitions => .ok ⟨s.expiry, s.updated, transitions, first.at_, first.offset⟩
    | _ => .error .tooFew

/-- `parse` scans the lines and then builds the table. -/
theorem parse_eq (data : Bytes) :
    parse data = (scanLines 1 (splitLines data) ⟨0, 0, []⟩).bind Scan.table := by
  unfold parse
  cases scanLines 1 (splitLines data) ⟨0, 0, []⟩ <;> rfl

/-- The offsets of a table are those of the records. -/
theorem table_offsets {s : Scan} {t : Table} (h : s.table = .ok t) :
    s.records.map (fun r => (r.at_, r.offset)) = t.offsets := by
  unfold Scan.table at h
  repeat' split at h
  all_goals try cases h
  rename_i _ first next rest hrecords _ _ _ transitions htransitions
  rw [hrecords, List.map_cons, transitionsFrom_offsets htransitions]
  rfl

def Scan.InRange (s : Scan) : Prop := ∀ r ∈ s.records, 1 ≤ r.offset ∧ r.offset ≤ 255

/-- A line keeps the offsets in range. -/
theorem scanLine_inRange {lineNo : ℕ} {line : Bytes} {s s' : Scan}
    (h : scanLine lineNo line s = .ok s') (hs : s.InRange) : s'.InRange := by
  obtain rfl | ⟨stamp, -, rfl | rfl⟩ | ⟨r, -, hr, rfl⟩ := scanLine_ok h
  · exact hs
  · exact hs
  · exact hs
  · exact List.forall_mem_append.mpr ⟨hs, List.forall_mem_singleton.mpr hr⟩

/-- An accepted list in terms of its records. -/
theorem parse_offsets {data : Bytes} {t : Table} (h : parse data = .ok t) :
    ∃ s, scanLines 1 (splitLines data) ⟨0, 0, []⟩ = .ok s ∧
      s.records.map (fun r => (r.at_, r.offset)) = t.offsets ∧
      ∀ p ∈ t.offsets, 1 ≤ p.2 ∧ p.2 ≤ 255 := by
  rw [parse_eq] at h
  cases hscan : scanLines 1 (splitLines data) ⟨0, 0, []⟩ with
  | error e =>
    rw [hscan] at h
    cases h
  | ok s =>
    rw [hscan] at h
    have hoffsets := table_offsets h
    have hrange : s.InRange := scanLines_invariant (fun _ _ _ _ => scanLine_inRange) hscan nofun
    refine ⟨s, rfl, hoffsets, fun p hp => ?_⟩
    rw [← hoffsets] at hp
    obtain ⟨r, hr, rfl⟩ := List.mem_map.mp hp
    exact hrange r hr

/-! ## The indicator -/

/-- `Next`: the first transition after an instant. -/
def Table.next (t : Table) (now : ℤ) : Option Transition := t.transitions.find? (now < ·.at_)

theorem warns_iff {tr : Transition} {now : ℤ} :
    tr.warns now = true ↔ now < tr.at_ ∧ tr.at_ - now ≤ day := by
  unfold Transition.warns
  rw [Bool.and_eq_true, decide_eq_true_eq, decide_eq_true_eq]
  omega

/-- Only the first transition after the instant can be warned of. -/
theorem find_warns {trs : List Transition} {now : ℤ} (h : trs.Pairwise fun x y => x.at_ < y.at_) :
    trs.find? (·.warns now) = (trs.find? (now < ·.at_)).filter (fun tr => tr.at_ - now ≤ day) := by
  induction trs with
  | nil => rfl
  | cons tr trs ih =>
    obtain ⟨hlater, hrest⟩ := List.pairwise_cons.mp h
    by_cases hnow : now < tr.at_
    · have hfirst : (tr :: trs).find? (now < ·.at_) = some tr :=
        List.find?_cons_of_pos (by simpa using hnow)
      rw [hfirst, Option.filter_some]
      by_cases hday : tr.at_ - now ≤ day
      · have hwarns : tr.warns now = true := warns_iff.mpr ⟨hnow, hday⟩
        rw [if_pos (by simpa using hday)]
        exact List.find?_cons_of_pos hwarns
      · rw [if_neg (by simpa using hday), List.find?_eq_none]
        intro x hx hwarns
        obtain ⟨-, hclose⟩ := warns_iff.mp hwarns
        rcases List.mem_cons.mp hx with rfl | hx
        · exact hday hclose
        · have hlt := hlater x hx
          omega
    · have hpast : (tr :: trs).find? (now < ·.at_) = trs.find? (now < ·.at_) :=
        List.find?_cons_of_neg (by simpa using hnow)
      have hquiet : (tr :: trs).find? (·.warns now) = trs.find? (·.warns now) :=
        List.find?_cons_of_neg fun hwarns => hnow (warns_iff.mp hwarns).1
      rw [hpast, hquiet, ih hrest]

/-- The indicator is that of the next transition, in its last day. -/
theorem indicator_eq {t : Table} (h : t.Valid) (now : ℤ) :
    t.indicator now = ((t.next now).filter (fun tr => tr.at_ - now ≤ day)).elim .none (·.leap) := by
  unfold Table.indicator Table.next
  rw [find_warns h.increasing]
  cases (t.transitions.find? (now < ·.at_)).filter (fun tr => tr.at_ - now ≤ day) <;> rfl

theorem indicator_iff {t : Table} (h : t.Valid) (now : ℤ) :
    (t.indicator now ≠ .none ↔ ∃ tr, t.next now = some tr ∧ tr.at_ - now ≤ day) ∧
      ∀ tr, t.next now = some tr → tr.at_ - now ≤ day → t.indicator now = tr.leap := by
  have hgives : ∀ tr, t.next now = some tr → tr.at_ - now ≤ day → t.indicator now = tr.leap := by
    intro tr htr hday
    rw [indicator_eq h, htr, Option.filter_some, if_pos (by simpa using hday), Option.elim_some]
  refine ⟨⟨fun hne => ?_, fun ⟨tr, htr, hday⟩ hnone => ?_⟩, hgives⟩
  · rw [indicator_eq h] at hne
    cases hfilter : (t.next now).filter (fun tr => tr.at_ - now ≤ day) with
    | none =>
      rw [hfilter] at hne
      exact absurd rfl hne
    | some tr =>
      obtain ⟨htr, hday⟩ := Option.filter_eq_some_iff.mp hfilter
      exact ⟨tr, htr, by simpa using hday⟩
  · -- a transition has a direction
    have hdirection := h.direction tr (List.mem_of_find?_eq_some htr)
    rw [← hgives tr htr hday, hnone] at hdirection
    exact absurd hdirection (by decide)

/-! ## Lines that say nothing -/

/-- A blank line or a comment; the marks of the stamps are not comments. -/
def isRemark (line : Bytes) : Bool :=
  match fields line with
  | [] => true
  | f₀ :: _ => [0x23] <+: f₀ ∧ ¬([0x23, 0x40] <+: f₀ ∨ [0x23, 0x24] <+: f₀)

/-- The second list has the lines of the first, in their order, and remarks that fit into the
scanner's buffer. -/
inductive Remarked : List Bytes → List Bytes → Prop
  | nil : Remarked [] []
  | keep (line : Bytes) {lines lines' : List Bytes} :
      Remarked lines lines' → Remarked (line :: lines) (line :: lines')
  | insert (line : Bytes) {lines lines' : List Bytes} : isRemark line = true →
      line.length < maxLine → Remarked lines lines' → Remarked lines (line :: lines')

theorem Remarked.refl (lines : List Bytes) : Remarked lines lines := by
  induction lines with
  | nil => exact .nil
  | cons line lines ih => exact .keep line ih

/-- Lines in front may be kept. -/
theorem Remarked.append (lines : List Bytes) {lines₁ lines₂ : List Bytes}
    (h : Remarked lines₁ lines₂) : Remarked (lines ++ lines₁) (lines ++ lines₂) := by
  induction lines with
  | nil => exact h
  | cons line lines ih => exact .keep line ih

/-- A file that is not empty has a line. -/
theorem splitLines_cons_ne_nil (b : UInt8) (rest : Bytes) : splitLines (b :: rest) ≠ [] := by
  unfold splitLines
  split_ifs
  · exact List.cons_ne_nil _ _
  · split <;> exact List.cons_ne_nil _ _

/-- A newline separates the lines before it from those after it. -/
theorem splitLines_append (pre post : Bytes) :
    splitLines (pre ++ [0x0A] ++ post) = splitLines (pre ++ [0x0A]) ++ splitLines post := by
  induction pre with
  | nil => rfl
  | cons b pre ih =>
    rw [List.cons_append, List.cons_append, splitLines, splitLines, ih]
    split_ifs
    · rfl
    · cases hlines : splitLines (pre ++ [0x0A]) with
      | nil =>
        cases pre with
        | nil => cases hlines
        | cons c pre => exact absurd hlines (splitLines_cons_ne_nil c _)
      | cons line lines => rfl

/-- A line with its end is one line. -/
theorem splitLines_line {line : Bytes} (h : 0x0A ∉ line) :
    splitLines (line ++ [0x0A]) = [line] := by
  induction line with
  | nil => rfl
  | cons b line ih =>
    obtain ⟨hb, hline⟩ := List.ne_and_not_mem_of_not_mem_cons h
    rw [List.cons_append, splitLines, if_neg (Ne.symm hb), ih hline]

/-- A remark put into a text where a line begins. -/
theorem remarked_insert (line : Bytes) (hline : 0x0A ∉ line) (hremark : isRemark line = true)
    (hshort : line.length < maxLine) (pre post : Bytes) :
    Remarked (splitLines post) (splitLines (line ++ [0x0A] ++ post)) ∧
      Remarked (splitLines (pre ++ [0x0A] ++ post))
        (splitLines (pre ++ [0x0A] ++ (line ++ [0x0A] ++ post))) := by
  have hfront : Remarked (splitLines post) (splitLines (line ++ [0x0A] ++ post)) := by
    rw [splitLines_append, splitLines_line hline]
    exact .insert line hremark hshort (.refl _)
  refine ⟨hfront, ?_⟩
  rw [splitLines_append pre, splitLines_append pre]
  exact hfront.append _

/-- An error without the numbers of the lines. -/
def ParseError.unnumbered : ParseError → ParseError
  | .malformedStamp _ field => .malformedStamp 0 field
  | .stamp _ cause => .stamp 0 cause
  | .duplicateExpiry _ => .duplicateExpiry 0
  | .duplicateUpdate _ => .duplicateUpdate 0
  | .malformedRecord _ => .malformedRecord 0
  | .unexpectedFields _ => .unexpectedFields 0
  | .transition _ cause => .transition 0 cause
  | .offset _ raw => .offset 0 raw
  | .notMidnight _ at_ => .notMidnight 0 at_
  | .notIncreasing _ => .notIncreasing 0
  | .delta _ change => .delta 0 change
  | e => e

def ListRecord.unnumbered (r : ListRecord) : ListRecord := { r with line := 0 }

def Scan.unnumbered (s : Scan) : Scan := { s with records := s.records.map ListRecord.unnumbered }

/-- The outcome of a scan without the numbers of the lines. -/
def unnumbered (x : Except ParseError Scan) : Except ParseError Scan :=
  (x.map Scan.unnumbered).mapError ParseError.unnumbered

theorem scanStamp_unnumbered (lineNo : ℕ) (fs : List Bytes) (s : Scan) :
    scanStamp 0 fs s.unnumbered = unnumbered (scanStamp lineNo fs s) := by
  have hexpiry : s.unnumbered.expiry = s.expiry := rfl
  have hupdated : s.unnumbered.updated = s.updated := rfl
  unfold scanStamp
  split
  · rename_i mark raw
    cases parseNTPSeconds raw with
    | error e => split_ifs <;> rfl
    | ok stamp =>
      simp only [hexpiry, hupdated]
      split_ifs <;> rfl
  · rfl

/-- A record is scanned the same at any line number, but for its error. -/
theorem scanRecord_unnumbered (lineNo : ℕ) (fs : List Bytes) (s : Scan) :
    scanRecord 0 fs s.unnumbered = unnumbered (scanRecord lineNo fs s) := by
  unfold scanRecord
  split
  · rename_i f₀ f₁ rest
    cases parseNTPSeconds f₀ with
    | error e => split_ifs <;> rfl
    | ok at_ =>
      cases atoi f₁ with
      | none => split_ifs <;> rfl
      | some offset =>
        dsimp only
        split_ifs
        case neg =>
          change Except.ok _ = Except.ok (Scan.unnumbered _)
          simp [Scan.unnumbered, ListRecord.unnumbered]
        all_goals rfl
  · rfl

/-- So is a line. -/
theorem scanLine_unnumbered (lineNo : ℕ) (line : Bytes) (s : Scan) :
    scanLine 0 line s.unnumbered = unnumbered (scanLine lineNo line s) := by
  unfold scanLine
  split
  · rfl
  · split_ifs
    · exact scanStamp_unnumbered lineNo _ s
    · rfl
    · exact scanRecord_unnumbered lineNo _ s

/-- The scan without the numbers of the lines. -/
def scanUnnumbered : List Bytes → Scan → Except ParseError Scan
  | [], s => .ok s
  | line :: lines, s =>
    if maxLine ≤ line.length then .error .tooLong
    else (scanLine 0 line s).bind (scanUnnumbered lines)

/-- So are the lines of a file. -/
theorem scanLines_unnumbered (lines : List Bytes) :
    ∀ (lineNo : ℕ) (s : Scan),
      scanUnnumbered lines s.unnumbered = unnumbered (scanLines lineNo lines s) := by
  induction lines with
  | nil => exact fun lineNo s => rfl
  | cons line lines ih =>
    intro lineNo s
    rw [scanUnnumbered, scanLines]
    split_ifs with hlong
    · rfl
    · rw [scanLine_unnumbered lineNo]
      cases scanLine lineNo line s with
      | error e => rfl
      | ok s => exact ih (lineNo + 1) s

/-- A remark is skipped. -/
theorem scanLine_remark {line : Bytes} (h : isRemark line = true) (lineNo : ℕ) (s : Scan) :
    scanLine lineNo line s = .ok s := by
  unfold isRemark at h
  unfold scanLine
  split
  · rfl
  · rename_i f₀ rest hfields
    rw [hfields] at h
    obtain ⟨hcomment, hstamp⟩ := of_decide_eq_true h
    rw [if_neg hstamp, if_pos hcomment]

/-- Remarks are passed over. -/
theorem scanUnnumbered_remarked {lines lines' : List Bytes} (h : Remarked lines lines') (s : Scan) :
    scanUnnumbered lines' s = scanUnnumbered lines s := by
  induction h generalizing s with
  | nil => rfl
  | keep line _ ih =>
    rw [scanUnnumbered, scanUnnumbered]
    congr 2
    exact funext ih
  | insert line hremark hshort _ ih =>
    rw [scanUnnumbered, if_neg (not_le.mpr hshort), scanLine_remark hremark]
    exact ih s

/-- Transitions do not look at line numbers, but for the error. -/
theorem transition_unnumbered (prev cur : ListRecord) :
    transition prev.unnumbered cur.unnumbered =
      (transition prev cur).mapError ParseError.unnumbered := by
  unfold transition ListRecord.unnumbered
  dsimp only
  split_ifs <;> rfl

theorem transitionsFrom_unnumbered (rest : List ListRecord) :
    ∀ prev : ListRecord, transitionsFrom prev.unnumbered (rest.map ListRecord.unnumbered) =
      (transitionsFrom prev rest).mapError ParseError.unnumbered := by
  induction rest with
  | nil => exact fun prev => rfl
  | cons cur rest ih =>
    intro prev
    rw [List.map_cons, transitionsFrom, transitionsFrom, transition_unnumbered, ih]
    cases transition prev cur with
    | error e => rfl
    | ok tr => cases transitionsFrom cur rest <;> rfl

/-- Nor does the table. -/
theorem table_unnumbered (s : Scan) :
    s.unnumbered.table = s.table.mapError ParseError.unnumbered := by
  obtain ⟨expiry, updated, records⟩ := s
  unfold Scan.table Scan.unnumbered
  dsimp only
  by_cases hexpiry : expiry = 0
  · rw [if_pos hexpiry, if_pos hexpiry]
    rfl
  rw [if_neg hexpiry, if_neg hexpiry]
  match records with
  | [] => rfl
  | [_] => rfl
  | first :: second :: rest =>
    have hlast : ((second :: rest).map ListRecord.unnumbered).getLast (by simp) =
        ((second :: rest).getLast (by simp)).unnumbered := List.getLast_map _
    have hat := congrArg ListRecord.at_ hlast
    have htransitions := transitionsFrom_unnumbered (second :: rest) first
    simp only [List.map_cons, ListRecord.unnumbered] at hat htransitions ⊢
    rw [hat, htransitions]
    split_ifs
    · rfl
    · rfl
    · cases transitionsFrom first (second :: rest) <;> rfl

/-- What `Parse` returns, without the numbers of the lines. -/
theorem parse_unnumbered (data : Bytes) :
    (parse data).mapError ParseError.unnumbered =
      (scanUnnumbered (splitLines data) ⟨0, 0, []⟩).bind Scan.table := by
  have hscan : scanUnnumbered (splitLines data) ⟨0, 0, []⟩ = _ :=
    scanLines_unnumbered (splitLines data) 1 ⟨0, 0, []⟩
  rw [parse_eq, hscan]
  cases scanLines 1 (splitLines data) ⟨0, 0, []⟩ with
  | error e => rfl
  | ok s => exact (table_unnumbered s).symm

/-- **What an accepted list says, and what does not matter in a list.**  The transitions are
strictly increasing midnights of 1 January or 1 July between the baseline and the expiry, the
update is before the expiry if it is given, and the changes they mark lead through the offsets
of the records, which are between 1 and 255.  The indicator is that of the first transition
after the instant if it is at most 24 hours ahead, and no warning otherwise.  Of two lists that
differ in remarks only, either both are refused, with the same error but for the number of its
line, or both give the same table. -/
theorem parse_sound (data : Bytes) :
    (∀ t, parse data = .ok t →
      t.Valid ∧
      (∃ s, scanLines 1 (splitLines data) ⟨0, 0, []⟩ = .ok s ∧
        s.records.map (fun r => (r.at_, r.offset)) = t.offsets ∧
        ∀ p ∈ t.offsets, 1 ≤ p.2 ∧ p.2 ≤ 255) ∧
      ∀ now,
        (t.indicator now ≠ .none ↔ ∃ tr, t.next now = some tr ∧ tr.at_ - now ≤ day) ∧
        ∀ tr, t.next now = some tr → tr.at_ - now ≤ day → t.indicator now = tr.leap) ∧
    ∀ data', Remarked (splitLines data) (splitLines data') →
      (parse data').mapError ParseError.unnumbered =
      (parse data).mapError ParseError.unnumbered := by
  refine ⟨fun t h => ⟨parse_valid h, parse_offsets h, fun now => ?_⟩, fun data' h => ?_⟩
  · exact indicator_iff (parse_valid h) now
  · rw [parse_unnumbered, parse_unnumbered, scanUnnumbered_remarked h]

/-- The list of 1972, also with a comment before it. -/
theorem parse_sound_1972 :
    list1972.table.indicator (ntpTime 2287785599) = .insert ∧
      (parse ([0x23] ++ [0x0A] ++ list1972.data)).mapError ParseError.unnumbered =
        .ok list1972.table := by
  obtain ⟨haccepted, hremarked⟩ := parse_sound list1972.data
  obtain ⟨-, -, hindicator⟩ := haccepted list1972.table list1972.parses
  refine ⟨(hindicator (ntpTime 2287785599)).2 ⟨ntpTime 2287785600, .insert⟩ (by decide +kernel)
    (by decide +kernel), ?_⟩
  have hinsert := remarked_insert [0x23] (by decide) (by decide) (by decide) [] list1972.data
  rw [hremarked _ hinsert.1, list1972.parses]
  rfl

/-- A comment that fills the scanner's buffer. -/
def longComment : Bytes := 0x23 :: List.replicate 65535 0x20

/-- Spaces only end a field. -/
theorem fieldsFrom_spaces (n : ℕ) (cur : Bytes) :
    fieldsFrom 0 cur (List.replicate n 0x20) = flush cur := by
  induction n generalizing cur with
  | zero => cases cur <;> rfl
  | succ n ih =>
    have hspace : spaceLen (0x20 :: List.replicate n 0x20) = 1 := rfl
    rw [List.replicate_succ, fieldsFrom, hspace]
    dsimp only
    rw [ih]
    exact List.append_nil _

/-- It is a comment, and the list with it is refused. -/
theorem parse_long_comment :
    isRemark longComment = true ∧ 0x0A ∉ longComment ∧ parse list1972.data = .ok list1972.table ∧
      parse (longComment ++ [0x0A] ++ list1972.data) = .error .tooLong := by
  have hnewline : 0x0A ∉ longComment := by
    intro h
    rcases List.mem_cons.mp h with h | h
    · exact absurd h (by decide)
    · exact absurd (List.eq_of_mem_replicate h) (by decide)
  have hlength : longComment.length = 65536 := by
    rw [longComment, List.length_cons, List.length_replicate]
  have hfields : fields longComment = [[0x23]] := fieldsFrom_spaces 65535 [0x23]
  refine ⟨?_, hnewline, list1972.parses, ?_⟩
  · rw [isRemark, hfields]
    decide
  · rw [parse, splitLines_append, splitLines_line hnewline, List.singleton_append, scanLines,
      if_pos (by rw [hlength]; decide)]

end Carillon.Leap
