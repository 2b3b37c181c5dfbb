/-
# The durable leap state

`State` couples the leap objects with the anti-rollback bounds; `Save` writes it as
one JSON document and `loadState` reads it back and checks it.  The document is
modelled as the decoded `DiskState`: the JSON encoding is taken to be lossless, and
the file as absent or readable.  `Loads` says that a state survives the round trip,
and `loads_iff` spells out what `loadState` demands of it.
-/
import Mathlib.Tactic
import Carillon.Leap.Object
import Carillon.Lib.Checks

namespace Carillon.Leap

/-! ## Records and states -/

/-- The kind of a provider; a document may name any other. -/
inductive Kind where
  | file
  | nist
  | iers
  | peer
  | other (name : String)
  deriving DecidableEq, Repr

/-- `Provider`: the immediate authority of an object. -/
structure Provider where
  kind : Kind
  name : Bytes
  keyID : ℕ
  deriving DecidableEq, Repr

/-- `Record`: an object, who provided it and when it was accepted. -/
structure Record where
  object : Object
  provider : Provider
  accepted : ℤ
  deriving DecidableEq

/-- `State`.  A committed pending object is kept beside the active one until the
engine activates it. -/
structure State where
  active : Option Record
  pending : Option Record
  utcBound : ℤ
  executed : ℤ
  lastCheck : ℤ
  deriving DecidableEq

/-- The state of a first start. -/
def State.empty : State := ⟨none, none, 0, 0, 0⟩

/-- `Anchor`: the newest object, which a candidate is checked against. -/
def State.anchor (s : State) : Option Object :=
  match s.pending with
  | some p => some p.object
  | none => s.active.map (·.object)

/-- A record is in a state as the active or the pending one. -/
def State.Holds (s : State) (r : Record) : Prop := s.active = some r ∨ s.pending = some r

/-! ## The document -/

/-- `diskRecord`. -/
structure DiskRecord where
  manifest : Manifest
  data : Bytes
  provider : Provider
  accepted : ℤ
  deriving DecidableEq

/-- `diskState`. -/
structure DiskState where
  version : ℕ
  active : Option DiskRecord
  pending : Option DiskRecord
  utcBound : ℤ
  executed : ℤ
  lastCheck : ℤ
  deriving DecidableEq

/-- The errors of `loadState` on a document. -/
inductive LoadError where
  /-- `leap: unsupported cache version`. -/
  | version
  /-- An object that `NewObject` rejects. -/
  | object (cause : Rejection)
  /-- `leap: cache metadata does not match its object`. -/
  | metadata
  /-- `leap: active cache: %w`. -/
  | active (cause : LoadError)
  /-- `leap: pending cache: %w`. -/
  | pending (cause : LoadError)
  /-- `leap: invalid cache UTC bound`. -/
  | utcBound
  /-- `leap: inconsistent pending cache: %w`. -/
  | inconsistent (cause : Rejection)
  /-- `leap: invalid execution record`. -/
  | executed
  /-- `leap: acceptance after established UTC bound`. -/
  | acceptedAfterBound
  /-- `leap: invalid acceptance record: %w`. -/
  | accepted (cause : Rejection)
  /-- `leap: invalid seed check date`. -/
  | lastCheck
  deriving DecidableEq, Repr

/-- The year of an instant. -/
def yearOf (t : ℤ) : ℤ := (dateOf t).year

/-- The metadata that `decode` checks beside the manifest. -/
def Provider.Valid (p : Provider) : Prop :=
  p.name.length ≤ 1024 ∧ (p.kind = .file ∨ p.kind = .nist ∨ p.kind = .iers ∨ p.kind = .peer) ∧
    (p.kind = .peer → p.keyID ≠ 0 ∧ p.keyID ≤ 65535)

instance (p : Provider) : Decidable p.Valid := by unfold Provider.Valid; infer_instance

/-- A test of `loadState` that ends it with an error. -/
def refuseIf (c : Prop) [Decidable c] (e : LoadError) : Except LoadError Unit :=
  if c then .error e else .ok ()

section

variable (sha256 : Bytes → Digest)

/-- The `encode` of `Save`. -/
def encodeRecord (r : Record) : DiskRecord :=
  ⟨r.object.manifest sha256, r.object.data, r.provider, r.accepted⟩

/-- The document that `Save` writes. -/
def encode (s : State) : DiskState :=
  ⟨1, s.active.map (encodeRecord sha256), s.pending.map (encodeRecord sha256), s.utcBound,
    s.executed, s.lastCheck⟩

/-- The `decode` of `loadState`, for a record that is present. -/
def decodeRecord (d : DiskRecord) : Except LoadError Record :=
  match newObject d.data with
  | .error e => .error (.object e)
  | .ok o =>
    if o.manifest sha256 ≠ d.manifest ∨ d.accepted = 0 ∨ ¬ d.provider.Valid then .error .metadata
    else .ok ⟨o, d.provider, d.accepted⟩

/-- The `decode` of `loadState`. -/
def decodeOption : Option DiskRecord → Except LoadError (Option Record)
  | none => .ok none
  | some d =>
    match decodeRecord sha256 d with
    | .error e => .error e
    | .ok r => .ok (some r)

/-- The check of an active record against a pending one. -/
def checkPair : Option Record → Option Record → Except LoadError Unit
  | some a, some p =>
    match checkUpdate sha256 (some a.object) (some p.object) p.accepted with
    | .error e => .error (.inconsistent e)
    | .ok () => .ok ()
  | _, _ => .ok ()

/-- The check of the acceptance of a record. -/
def checkAccepted (utcBound : ℤ) : Option Record → Except LoadError Unit
  | none => .ok ()
  | some r =>
    if utcBound < r.accepted then .error .acceptedAfterBound
    else match checkUpdate sha256 none (some r.object) r.accepted with
      | .error e => .error (.accepted e)
      | .ok () => .ok ()

/-- What `loadState` does with a decoded document. -/
def validate (d : DiskState) : Except LoadError State := do
  refuseIf (d.version ≠ 1) .version
  let a ← (decodeOption sha256 d.active).mapError .active
  let p ← (decodeOption sha256 d.pending).mapError .pending
  refuseIf (d.utcBound ≠ 0 ∧ (yearOf d.utcBound < 1900 ∨ 9999 < yearOf d.utcBound)) .utcBound
  checkPair sha256 a p
  refuseIf (d.executed ≠ 0 ∧ (yearOf d.executed < 1900 ∨ d.utcBound < d.executed)) .executed
  checkAccepted sha256 d.utcBound a
  checkAccepted sha256 d.utcBound p
  refuseIf (d.lastCheck ≠ 0 ∧ (yearOf d.lastCheck < 1900 ∨ d.utcBound < d.lastCheck)) .lastCheck
  .ok ⟨a, p, d.utcBound, d.executed, d.lastCheck⟩

/-- `loadState`: a missing document is the empty state. -/
def loadState : Option DiskState → Except LoadError State
  | none => .ok .empty
  | some d => validate sha256 d

/-- A state that loads back equal once it is saved. -/
def State.Loads (s : State) : Prop := loadState sha256 (some (encode sha256 s)) = .ok s

instance (s : State) : Decidable (s.Loads sha256) := by unfold State.Loads; infer_instance

end

/-! ## What loading demands -/

/-- What `loadState` demands of a state that was saved. -/
structure State.Valid (sha256 : Bytes → Digest) (s : State) : Prop where
  record : ∀ r, s.Holds r → r.accepted ≠ 0 ∧ r.provider.Valid
  bound : s.utcBound = 0 ∨ (1900 ≤ yearOf s.utcBound ∧ yearOf s.utcBound ≤ 9999)
  pair : ∀ a p, s.active = some a → s.pending = some p →
    checkUpdate sha256 (some a.object) (some p.object) p.accepted = .ok ()
  execution : s.executed = 0 ∨ (1900 ≤ yearOf s.executed ∧ s.executed ≤ s.utcBound)
  acceptance : ∀ r, s.Holds r → r.accepted ≤ s.utcBound ∧ r.object.table.Covers r.accepted
  check : s.lastCheck = 0 ∨ (1900 ≤ yearOf s.lastCheck ∧ s.lastCheck ≤ s.utcBound)

section

variable {sha256 : Bytes → Digest}

/-- Decoding an encoded record gives it back, if its metadata is in order. -/
theorem decodeOption_encode {r r' : Option Record} :
    decodeOption sha256 (r.map (encodeRecord sha256)) = .ok r' ↔
      r' = r ∧ ∀ x ∈ r, x.accepted ≠ 0 ∧ x.provider.Valid := by
  cases r with
  | none => simp [decodeOption, eq_comm]
  | some r =>
    simp only [Option.map_some, decodeOption, decodeRecord, encodeRecord, newObject_data]
    by_cases h : r.accepted = 0 ∨ ¬ r.provider.Valid
    · simp only [ne_eq, not_true_eq_false, false_or, if_pos h, Option.mem_def, Option.some.injEq,
        forall_eq', reduceCtorEq, false_iff]
      tauto
    · simp only [ne_eq, not_true_eq_false, false_or, if_neg h, Option.mem_def, Option.some.injEq,
        forall_eq', Except.ok.injEq, eq_comm (a := r')]
      tauto

/-- The pending object has to follow the active one. -/
theorem checkPair_ok_iff {a p : Option Record} :
    checkPair sha256 a p = .ok () ↔ ∀ a' ∈ a, ∀ p' ∈ p,
      checkUpdate sha256 (some a'.object) (some p'.object) p'.accepted = .ok () := by
  cases a with
  | none => simp [checkPair]
  | some a =>
    cases p with
    | none => simp [checkPair]
    | some p =>
      simp only [checkPair, Option.mem_def, Option.some.injEq, forall_eq']
      split <;> simp [*]

/-- A record has to be accepted by the bound, at an instant that it covers. -/
theorem checkAccepted_ok_iff {b : ℤ} {r : Option Record} :
    checkAccepted sha256 b r = .ok () ↔
      ∀ r' ∈ r, r'.accepted ≤ b ∧ r'.object.table.Covers r'.accepted := by
  cases r with
  | none => simp [checkAccepted]
  | some r =>
    simp only [checkAccepted, Option.mem_def, Option.some.injEq, forall_eq',
      ← @checkUpdate_none_iff sha256]
    split_ifs with hb
    · simp only [false_iff]
      omega
    · have hb' : r.accepted ≤ b := by omega
      split <;> simp [*]

theorem refuseIf_eq_ok {c : Prop} [Decidable c] {e : LoadError} :
    refuseIf c e = .ok () ↔ ¬ c := by
  unfold refuseIf
  split_ifs with h <;> simp [h]

/-- A saved state loads back equal exactly when it meets the demands. -/
theorem loads_iff {s : State} : s.Loads sha256 ↔ s.Valid sha256 := by
  simp only [State.Loads, loadState, validate, encode, Checks.bind_eq_ok, Checks.mapError_eq_ok,
    decodeOption_encode, Option.mem_def]
  constructor
  · rintro ⟨_, -, _, ⟨rfl, ha⟩, _, ⟨rfl, hp⟩, _, hb, _, hc, _, he, _, ha', _, hp', _, hl, -⟩
    have hb := refuseIf_eq_ok.mp hb
    have hc := checkPair_ok_iff.mp hc
    have he := refuseIf_eq_ok.mp he
    have ha' := checkAccepted_ok_iff.mp ha'
    have hp' := checkAccepted_ok_iff.mp hp'
    have hl := refuseIf_eq_ok.mp hl
    exact ⟨fun r hr => hr.elim (ha r) (hp r), by omega, fun a p ha hp => hc a ha p hp, by omega,
      fun r hr => hr.elim (ha' r) (hp' r), by omega⟩
  · rintro ⟨hr, hb, hc, he, hacc, hl⟩
    exact ⟨(), refuseIf_eq_ok.mpr (by simp), _, ⟨rfl, fun r h => hr r (.inl h)⟩,
      _, ⟨rfl, fun r h => hr r (.inr h)⟩, (), refuseIf_eq_ok.mpr (by omega),
      (), checkPair_ok_iff.mpr fun a ha p hp => hc a p ha hp, (), refuseIf_eq_ok.mpr (by omega),
      (), checkAccepted_ok_iff.mpr fun r h => hacc r (.inl h),
      (), checkAccepted_ok_iff.mpr fun r h => hacc r (.inr h),
      (), refuseIf_eq_ok.mpr (by omega), rfl⟩

end

end Carillon.Leap
