/-
# Leap objects and their revision

A leap object is a file that `NewObject` accepted: its bytes, the table they parse
to and the manifest that identifies them.  `CheckUpdate` decides whether one object
may follow another at an instant.  It looks at two objects only, over the interval
the older one covered by then; along a chain of accepted revisions these intervals
overlap, so what any object recorded of the past is still there at the end of the
chain.
-/
import Mathlib.Tactic
import Carillon.Leap.Table

namespace Carillon.Leap

/-! ## Rejections -/

/-- The bounded reason of a rejection. -/
inductive Reason where
  | size
  | parse
  | metadata
  | timeUnknown
  | expired
  | date
  | rollback
  | conflict
  | history
  | armed
  | generation
  | framing
  | auth
  | rate
  | correlation
  | timeout
  | missing
  | changed
  | digest
  deriving DecidableEq, Repr

/-- The detail of a rejection: a text, or the error of the parser. -/
inductive Detail where
  | text (s : String)
  | parse (e : ParseError)
  deriving DecidableEq, Repr

/-- `Rejection`. -/
structure Rejection where
  reason : Reason
  detail : Detail
  deriving DecidableEq, Repr

/-- `Reject`, with the detail as a text. -/
def reject {α : Type} (reason : Reason) (detail : String) : Except Rejection α :=
  .error ⟨reason, .text detail⟩

/-- A check that rejects passes when its condition does not hold, and the rest passes. -/
theorem ite_reject {α : Type} {c : Prop} [Decidable c] {reason : Reason} {detail : String}
    {rest : Except Rejection α} {a : α} :
    (if c then reject reason detail else rest) = .ok a ↔ ¬c ∧ rest = .ok a := by
  by_cases hc : c
  · rw [if_pos hc]
    exact ⟨nofun, fun h => absurd hc h.1⟩
  · rw [if_neg hc]
    exact ⟨fun h => ⟨hc, h⟩, fun h => h.2⟩

/-! ## Objects -/

/-- A SHA-256 digest. -/
abbrev Digest := Vector UInt8 32

/-- `Manifest`: what identifies the bytes of a file.  Dates are seconds since 1900. -/
structure Manifest where
  updated : ℤ
  expires : ℤ
  digest : Digest
  size : ℕ
  deriving DecidableEq

/-- `MaxFileSize`. -/
def maxFileSize : ℕ := 65536

/-- `Object`: a file that `NewObject` accepts, with the table it parses to. -/
structure Object where
  data : Bytes
  table : Table
  size_pos : 0 < data.length
  size_le : data.length ≤ maxFileSize
  parses : parse data = .ok table
  updated_ne : table.updated ≠ 0

/-- `NewObject`. -/
def newObject (data : Bytes) : Except Rejection Object :=
  if hs : data.length = 0 ∨ maxFileSize < data.length then
    reject .size "file exceeds the 64 KiB bound or is empty"
  else match hp : parse data with
    | .error e => .error ⟨.parse, .parse e⟩
    | .ok t =>
      if hu : t.updated = 0 then reject .metadata "missing #$ data-update date"
      else .ok ⟨data, t, by omega, by omega, hp, hu⟩

/-- `dateSeconds`: an instant as seconds since 1900. -/
def dateSeconds (t : ℤ) : ℤ := t / second - ntpEpoch

/-- The manifest that `NewObject` puts into an object, for a digest function. -/
def Object.manifest (sha256 : Bytes → Digest) (o : Object) : Manifest where
  updated := dateSeconds o.table.updated
  expires := dateSeconds o.table.expiry
  digest := sha256 o.data
  size := o.data.length

/-- An object is determined by its bytes. -/
theorem Object.ext_data {o o' : Object} (h : o.data = o'.data) : o = o' := by
  obtain ⟨data, table, h₁, h₂, hp, h₃⟩ := o
  obtain ⟨data', table', h₁', h₂', hp', h₃'⟩ := o'
  obtain rfl : data = data' := h
  have : table = table' := Except.ok.inj (hp.symm.trans hp')
  subst this
  rfl

instance : DecidableEq Object := fun o o' =>
  decidable_of_iff (o.data = o'.data) ⟨Object.ext_data, fun h => h ▸ rfl⟩

/-- `NewObject` of the bytes of an object gives the object. -/
theorem newObject_data (o : Object) : newObject o.data = .ok o := by
  unfold newObject
  have hs := o.size_pos
  have hl := o.size_le
  rw [dif_neg (by omega)]
  split
  · rename_i e hp
    rw [o.parses] at hp
    cases hp
  · rename_i t hp
    have ht : o.table = t := Except.ok.inj (o.parses.symm.trans hp)
    rw [dif_neg (ht ▸ o.updated_ne)]
    exact congrArg Except.ok (Object.ext_data rfl)

/-- The table of an object is valid. -/
theorem Object.valid (o : Object) : o.table.Valid := parse_valid o.parses

/-- Both dates of an object are named by a number of seconds. -/
theorem Object.dated (o : Object) :
    (∃ n, date n = .ok o.table.updated) ∧ ∃ n, date n = .ok o.table.expiry := by
  obtain ⟨hexpiry, hupdated⟩ := parse_stamped o.parses
  exact ⟨hupdated.resolve_left o.updated_ne, hexpiry⟩

/-- What `Date` names, `dateSeconds` gives back, and the two are inverse to each other. -/
theorem dateSeconds_date {n : ℕ} {t : ℤ} (h : date n = .ok t) :
    dateSeconds t = n ∧ (dateSeconds t + ntpEpoch) * second = t ∧ 0 < n ∧ n ≤ 255611289599 := by
  have ht := date_ok h
  have hback : dateSeconds t = n := by
    rw [ht, dateSeconds, Int.mul_ediv_cancel _ (by decide)]
    omega
  unfold date at h
  split_ifs at h with hbad
  rw [not_or] at hbad
  refine ⟨hback, ?_, by omega, by omega⟩
  rw [hback, ht]

/-- Seconds since 1900 are ordered as the dates they stand for. -/
theorem dateSeconds_lt_iff {t t' : ℤ} (h : ∃ n, date n = .ok t) (h' : ∃ n, date n = .ok t') :
    dateSeconds t < dateSeconds t' ↔ t < t' := by
  obtain ⟨n, hn⟩ := h
  obtain ⟨n', hn'⟩ := h'
  obtain ⟨-, ht, -⟩ := dateSeconds_date hn
  obtain ⟨-, ht', -⟩ := dateSeconds_date hn'
  have hpos : (0 : ℤ) < second := by decide
  have hlt : dateSeconds t + ntpEpoch < dateSeconds t' + ntpEpoch ↔ t < t' := by
    rw [← mul_lt_mul_iff_of_pos_right hpos, ht, ht']
  rw [← hlt]
  omega

/-! ## The update check -/

/-- The transitions up to an instant, as the loop of `CheckUpdate` cuts them off. -/
def Table.past (t : Table) (cutoff : ℤ) : List Transition :=
  t.transitions.takeWhile (fun tr => decide (tr.at_ ≤ cutoff))

/-- The end of the interval that an update must preserve: the present, or the last
instant that the old table covers. -/
def Table.cutoff (t : Table) (now : ℤ) : ℤ := if now < t.expiry then now else t.expiry - 1

/-- `CheckUpdate`. -/
def checkUpdate (sha256 : Bytes → Digest) (old next : Option Object) (now : ℤ) :
    Except Rejection Unit :=
  match next with
  | none => reject .metadata "missing object"
  | some next =>
    let n := next.table
    if now = 0 then reject .timeUnknown "UTC has not been established"
    else if n.expiry ≤ now then reject .expired "table no longer covers UTC"
    else if now < n.baseline ∨ now + 5 * minute < n.updated ∨ now + 400 * day < n.expiry then
      reject .date "table dates are outside the accepted UTC bounds"
    else match old with
      | none => .ok ()
      | some old =>
        let o := old.table
        if next.manifest sha256 = old.manifest sha256 then .ok ()
        else if n.updated < o.updated ∨ n.expiry < o.expiry then
          reject .rollback "data-update or expiry date decreased"
        else if n.updated = o.updated ∧ n.expiry = o.expiry then
          reject .conflict "different bytes with identical dates"
        else if n.baseline ≠ o.baseline ∨ n.offset ≠ o.offset then
          reject .history "TAI-UTC baseline changed"
        else if n.updated = o.updated ∧ n.transitions ≠ o.transitions then
          reject .history "expiry-only renewal changed leap records"
        else if o.past (o.cutoff now) ≠ n.past (o.cutoff now) then
          reject .history "effective leap history changed"
        else .ok ()

/-- What the check of a single object establishes: the instant is known, and the
table covers it and has plausible dates. -/
structure Table.Covers (n : Table) (now : ℤ) : Prop where
  known : now ≠ 0
  unexpired : now < n.expiry
  baseline_le : n.baseline ≤ now
  updated_le : n.updated ≤ now + 5 * minute
  expiry_le : n.expiry ≤ now + 400 * day

/-- What the check of a revision establishes beyond that, for different manifests. -/
structure Table.Revises (n o : Table) (now : ℤ) : Prop where
  updated_le : o.updated ≤ n.updated
  expiry_le : o.expiry ≤ n.expiry
  dates_ne : ¬ (n.updated = o.updated ∧ n.expiry = o.expiry)
  baseline_eq : n.baseline = o.baseline
  offset_eq : n.offset = o.offset
  renewal : n.updated = o.updated → n.transitions = o.transitions
  past_eq : o.past (o.cutoff now) = n.past (o.cutoff now)

section Check

variable {sha256 : Bytes → Digest}

/-- The checks of a single object, before anything that follows them. -/
theorem Table.covers_iff {n : Table} {now : ℤ} :
    n.Covers now ↔ ¬now = 0 ∧ ¬n.expiry ≤ now ∧
      ¬(now < n.baseline ∨ now + 5 * minute < n.updated ∨ now + 400 * day < n.expiry) := by
  rw [not_or, not_or, not_le, not_lt, not_lt, not_lt]
  exact ⟨fun ⟨h₁, h₂, h₃, h₄, h₅⟩ => ⟨h₁, h₂, h₃, h₄, h₅⟩, fun ⟨h₁, h₂, h₃, h₄, h₅⟩ =>
    ⟨h₁, h₂, h₃, h₄, h₅⟩⟩

/-- A first object has to cover the instant. -/
theorem checkUpdate_none_iff {o : Object} {now : ℤ} :
    checkUpdate sha256 none (some o) now = .ok () ↔ o.table.Covers now := by
  unfold checkUpdate
  dsimp only
  rw [ite_reject, ite_reject, ite_reject, Table.covers_iff]
  simp only [and_true]

/-- The checks of a revision. -/
theorem Table.revises_iff {n o : Table} {now : ℤ} :
    n.Revises o now ↔ ¬(n.updated < o.updated ∨ n.expiry < o.expiry) ∧
      ¬(n.updated = o.updated ∧ n.expiry = o.expiry) ∧
      ¬(n.baseline ≠ o.baseline ∨ n.offset ≠ o.offset) ∧
      ¬(n.updated = o.updated ∧ n.transitions ≠ o.transitions) ∧
      ¬o.past (o.cutoff now) ≠ n.past (o.cutoff now) := by
  constructor
  · rintro ⟨h₁, h₂, h₃, h₄, h₅, h₆, h₇⟩
    refine ⟨not_or.mpr ⟨not_lt.mpr h₁, not_lt.mpr h₂⟩, h₃, ?_, ?_, not_not.mpr h₇⟩
    · exact not_or.mpr ⟨not_not.mpr h₄, not_not.mpr h₅⟩
    · exact fun h => h.2 (h₆ h.1)
  · rintro ⟨hdates, hsame, hbase, hrenewal, hpast⟩
    rw [not_or] at hdates hbase
    refine ⟨not_lt.mp hdates.1, not_lt.mp hdates.2, hsame, not_not.mp hbase.1,
      not_not.mp hbase.2, ?_, not_not.mp hpast⟩
    exact fun hu => not_not.mp fun ht => hrenewal ⟨hu, ht⟩

/-- A later one also has to be the same or a revision. -/
theorem checkUpdate_some_iff {o n : Object} {now : ℤ} :
    checkUpdate sha256 (some o) (some n) now = .ok () ↔
      n.table.Covers now ∧
        (n.manifest sha256 = o.manifest sha256 ∨ n.table.Revises o.table now) := by
  unfold checkUpdate
  dsimp only
  rw [ite_reject, ite_reject, ite_reject, Table.covers_iff, and_assoc, and_assoc]
  by_cases hm : n.manifest sha256 = o.manifest sha256
  · rw [if_pos hm]
    simp only [hm, true_or]
  · rw [if_neg hm, ite_reject, ite_reject, ite_reject, ite_reject, ite_reject]
    simp only [hm, false_or, Table.revises_iff, and_true]

end Check

/-! ## What a revision keeps -/

/-- The transitions at or before an instant. -/
def Table.upTo (t : Table) (c : ℤ) : List Transition :=
  t.transitions.filter (fun tr => decide (tr.at_ ≤ c))

/-- `n` has no older dates than `o`, the same baseline and offset, and the same
transitions up to the instant `c`. -/
structure Table.Keeps (n o : Table) (c : ℤ) : Prop where
  updated_le : o.updated ≤ n.updated
  expiry_le : o.expiry ≤ n.expiry
  baseline_eq : n.baseline = o.baseline
  offset_eq : n.offset = o.offset
  upTo_eq : n.upTo c = o.upTo c

/-- On increasing instants, cutting off at the first late one drops all late ones. -/
theorem takeWhile_eq_filter {l : List Transition} (h : l.Pairwise (fun x y => x.at_ < y.at_))
    (c : ℤ) : l.takeWhile (fun tr => decide (tr.at_ ≤ c)) =
      l.filter (fun tr => decide (tr.at_ ≤ c)) := by
  induction l with
  | nil => rfl
  | cons tr l ih =>
    rw [List.pairwise_cons] at h
    by_cases hc : tr.at_ ≤ c
    · rw [List.takeWhile_cons_of_pos (by simpa using hc),
        List.filter_cons_of_pos (by simpa using hc), ih h.2]
    · rw [List.takeWhile_cons_of_neg (by simpa using hc),
        List.filter_cons_of_neg (by simpa using hc)]
      -- everything that follows is later still
      refine (List.filter_eq_nil_iff.mpr ?_).symm
      intro tr' htr'
      have := h.1 tr' htr'
      simp only [decide_eq_true_eq]
      omega

/-- The past that `CheckUpdate` compares is the table up to the cutoff. -/
theorem Table.Valid.past_eq_upTo {t : Table} (h : t.Valid) (c : ℤ) : t.past c = t.upTo c :=
  takeWhile_eq_filter h.increasing c

/-- The earlier of two cutoffs decides. -/
theorem Table.upTo_upTo {t : Table} {c c' : ℤ} (h : c' ≤ c) :
    (t.upTo c).filter (fun tr => decide (tr.at_ ≤ c')) = t.upTo c' := by
  rw [Table.upTo, List.filter_filter, Table.upTo]
  refine List.filter_congr fun tr _ => ?_
  rw [Bool.eq_iff_iff]
  simp only [Bool.and_eq_true, decide_eq_true_eq]
  omega

/-- The cutoff is the instant, or the last one that the table covers. -/
theorem Table.cutoff_eq_min (t : Table) (now : ℤ) : t.cutoff now = min now (t.expiry - 1) := by
  unfold Table.cutoff
  split_ifs <;> omega

namespace Table.Keeps

variable {m n o : Table} {c c' : ℤ}

theorem refl (o : Table) (c : ℤ) : o.Keeps o c := ⟨le_rfl, le_rfl, rfl, rfl, rfl⟩

/-- Keeping more of the past keeps less of it. -/
theorem mono (h : n.Keeps o c) (hc : c' ≤ c) : n.Keeps o c' := by
  obtain ⟨h₁, h₂, h₃, h₄, h₅⟩ := h
  refine ⟨h₁, h₂, h₃, h₄, ?_⟩
  rw [← Table.upTo_upTo hc, h₅, Table.upTo_upTo hc]

/-- Keeping the past is transitive. -/
theorem trans (h : n.Keeps m c) (h' : m.Keeps o c) : n.Keeps o c where
  updated_le := h'.updated_le.trans h.updated_le
  expiry_le := h'.expiry_le.trans h.expiry_le
  baseline_eq := h.baseline_eq.trans h'.baseline_eq
  offset_eq := h.offset_eq.trans h'.offset_eq
  upTo_eq := h.upTo_eq.trans h'.upTo_eq

end Table.Keeps

section Chain

variable {sha256 : Bytes → Digest}

/-- Where the digest tells the two files apart, an accepted update keeps the past
that the old table covered. -/
theorem keeps_of_checkUpdate {o n : Object} {now : ℤ}
    (hash : sha256 n.data = sha256 o.data → n.data = o.data)
    (h : checkUpdate sha256 (some o) (some n) now = .ok ()) :
    n.table.Keeps o.table (o.table.cutoff now) := by
  obtain ⟨-, hm | hr⟩ := checkUpdate_some_iff.mp h
  · have hd : sha256 n.data = sha256 o.data := congrArg Manifest.digest hm
    rw [Object.ext_data (hash hd)]
    exact .refl _ _
  · refine ⟨hr.updated_le, hr.expiry_le, hr.baseline_eq, hr.offset_eq, ?_⟩
    rw [← n.valid.past_eq_upTo, ← o.valid.past_eq_upTo]
    exact hr.past_eq.symm

variable {o : ℕ → Object} {t : ℕ → ℤ} {k : ℕ}

/-- Along a chain of updates at nondecreasing times, a later object keeps what an
earlier one covered when it was replaced. -/
theorem keeps_of_chain
    (hash : ∀ i ≤ k, ∀ j ≤ k, sha256 (o i).data = sha256 (o j).data → (o i).data = (o j).data)
    (times : ∀ i j, 1 ≤ i → i ≤ j → j ≤ k → t i ≤ t j)
    (checks : ∀ i < k, checkUpdate sha256 (some (o i)) (some (o (i + 1))) (t (i + 1)) = .ok ())
    {i j : ℕ} (hij : i < j) (hj : j ≤ k) :
    (o j).table.Keeps (o i).table ((o i).table.cutoff (t (i + 1))) := by
  have step : ∀ j < k, (o (j + 1)).table.Keeps (o j).table ((o j).table.cutoff (t (j + 1))) :=
    fun j hj => keeps_of_checkUpdate (hash _ (by omega) _ (by omega)) (checks j hj)
  -- induction on the later object, from the one that replaced `o i` on
  induction j, hij using Nat.le_induction with
  | base => exact step i (by omega)
  | succ j hle ih =>
    have hi := ih (by omega)
    refine ((step j (by omega)).mono ?_).trans hi
    -- the window of a later step ends no earlier
    rw [Table.cutoff_eq_min, Table.cutoff_eq_min]
    have h₁ := hi.expiry_le
    have h₂ := times (i + 1) (j + 1) (by omega) (by omega) (by omega)
    omega

/-- Anti-rollback composes: along every chain of objects, each accepted as an update
of the one before at nondecreasing times, the dates are nondecreasing, the baseline
and the starting offset are constant, and every later object has the transitions of
an earlier one up to the update that replaced it or the last instant it covers,
whichever is first.  The digest is assumed to identify the files of the chain. -/
theorem checkUpdate_chain_keeps (sha256 : Bytes → Digest) (o : ℕ → Object) (t : ℕ → ℤ) (k : ℕ)
    (hash : ∀ i ≤ k, ∀ j ≤ k, sha256 (o i).data = sha256 (o j).data → (o i).data = (o j).data)
    (times : ∀ i j, 1 ≤ i → i ≤ j → j ≤ k → t i ≤ t j)
    (checks : ∀ i < k, checkUpdate sha256 (some (o i)) (some (o (i + 1))) (t (i + 1)) = .ok ()) :
    ∀ i j, i < j → j ≤ k →
      (o i).table.updated ≤ (o j).table.updated ∧ (o i).table.expiry ≤ (o j).table.expiry ∧
      (o j).table.baseline = (o i).table.baseline ∧ (o j).table.offset = (o i).table.offset ∧
      ∀ c ≤ min (t (i + 1)) ((o i).table.expiry - 1), (o j).table.upTo c = (o i).table.upTo c := by
  intro i j hij hj
  have h := keeps_of_chain hash times checks hij hj
  rw [Table.cutoff_eq_min] at h
  exact ⟨h.updated_le, h.expiry_le, h.baseline_eq, h.offset_eq, fun c hc => (h.mono hc).upTo_eq⟩

end Chain

/-! ## Sample files -/

/-- A number in decimal digits. -/
def writeNat (n : ℕ) : Bytes := (Nat.toDigits 10 n).map (fun c => UInt8.ofNat c.toNat)

/-- A leap-seconds.list with the given stamps and records, in seconds since 1900. -/
def writeList (updated expiry : ℕ) (records : List (ℕ × ℕ)) : Bytes :=
  [0x23, 0x24, 0x20] ++ writeNat updated ++ [0x0A] ++ [0x23, 0x40, 0x20] ++ writeNat expiry ++
    [0x0A] ++ records.flatMap (fun r => writeNat r.1 ++ [0x20] ++ writeNat r.2 ++ [0x0A])

/-- A digest that tells the sample files apart by their first bytes. -/
def firstBytes (data : Bytes) : Digest := Vector.ofFn (fun i => data.getD i 0)

/-- An instant given in seconds since 1900. -/
def ntpTime (seconds : ℕ) : ℤ := (seconds + ntpEpoch) * second

/-- The list of 1972 after its first leap second was announced. -/
def list1972 : Object where
  data := writeList 2280000000 2290000000 [(2272060800, 10), (2287785600, 11)]
  table := ⟨ntpTime 2290000000, ntpTime 2280000000, [⟨ntpTime 2287785600, .insert⟩],
    ntpTime 2272060800, 10⟩
  size_pos := by decide +kernel
  size_le := by decide +kernel
  parses := by decide +kernel
  updated_ne := by decide +kernel

/-- Its revision that announces the leap second at the end of the year. -/
def list1972b : Object where
  data := writeList 2281000000 2310000000 [(2272060800, 10), (2287785600, 11), (2303683200, 12)]
  table := ⟨ntpTime 2310000000, ntpTime 2281000000,
    [⟨ntpTime 2287785600, .insert⟩, ⟨ntpTime 2303683200, .insert⟩], ntpTime 2272060800, 10⟩
  size_pos := by decide +kernel
  size_le := by decide +kernel
  parses := by decide +kernel
  updated_ne := by decide +kernel

/-- The chain theorem on the two sample files, accepted after the leap second of
July 1972: the revision keeps that leap second. -/
theorem checkUpdate_chain_keeps_1972 :
    checkUpdate firstBytes (some list1972) (some list1972b) (ntpTime 2288000000) = .ok () ∧
    list1972b.table.upTo (ntpTime 2288000000) = list1972.table.upTo (ntpTime 2288000000) ∧
    list1972.table.upTo (ntpTime 2288000000) = [⟨ntpTime 2287785600, .insert⟩] := by
  refine ⟨by decide +kernel, ?_, by decide +kernel⟩
  have h := checkUpdate_chain_keeps firstBytes (fun i => if i = 0 then list1972 else list1972b)
    (fun _ => ntpTime 2288000000) 1 (by decide +kernel) (fun _ _ _ _ _ => le_rfl)
    (by decide +kernel) 0 1 (by decide) le_rfl
  exact h.2.2.2.2 _ (by decide +kernel)

end Carillon.Leap
