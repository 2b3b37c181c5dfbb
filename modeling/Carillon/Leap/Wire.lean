/-
# The CLPS extension field

A leap table travels in one NTP extension field, `CLPS`: a fixed part of 88 bytes and
up to 256 bytes of the file, padded to a multiple of four.  `AppendTo` writes a
message that `validate` accepts; `DecodeFields` scans the extension fields of a packet
and reads the one CLPS field among them.  As in the packet decoder, reads are checked
and the loop has fuel, and `none` stands for a panic or a loop that does not end.

On valid messages the two are inverse, and only the written form is accepted: every
reserved and every padding byte is checked.
-/
import Carillon.Ntp.Packet
import Carillon.Leap.Object

namespace Carillon.Leap

open Octets (get put slice? fill Tiled)
open Ntp (IsField)

/-! ## Manifests -/

/-- The zero `Manifest{}`. -/
def Manifest.zero : Manifest := ⟨0, 0, Vector.replicate 32 0, 0⟩

/-- `Manifest.Validate`.  A date that `Date` refuses is reported as such. -/
def Manifest.validate (m : Manifest) : Except Detail Unit :=
  match date m.updated.toNat with
  | .error e => .error (.parse e)
  | .ok u =>
    match date m.expires.toNat with
    | .error e => .error (.parse e)
    | .ok e =>
      if e ≤ u ∨ m.size = 0 ∨ maxFileSize < m.size ∨ m.digest = Vector.replicate 32 0 then
        .error (.text "leap: invalid manifest")
      else .ok ()

/-- What `Validate` accepts. -/
structure Manifest.Valid (m : Manifest) : Prop where
  updated_pos : 0 < m.updated
  updated_lt : m.updated < m.expires
  expires_le : m.expires ≤ 255611289599
  size_pos : 0 < m.size
  size_le : m.size ≤ 65536
  digest_ne : m.digest ≠ Vector.replicate 32 0

/-- `Validate` of a manifest, read as a predicate. -/
theorem Manifest.validate_ok_iff (m : Manifest) : m.validate = .ok () ↔ m.Valid := by
  unfold Manifest.validate date
  constructor
  · intro h
    split at h
    · cases h
    · rename_i hu
      split_ifs at hu with hubad
      cases hu
      split at h
      · cases h
      · rename_i he
        split_ifs at he with hebad
        cases he
        split_ifs at h with hbad
        simp only [not_or, maxFileSize, second] at hbad hubad hebad
        obtain ⟨hlt, hsize, hmax, hdigest⟩ := hbad
        exact ⟨by omega, by omega, by omega, by omega, by omega, hdigest⟩
  · intro h
    have h1 := h.updated_pos
    have h2 := h.updated_lt
    have h3 := h.expires_le
    have h4 := h.size_pos
    have h5 := h.size_le
    rw [if_neg (by omega), if_neg (by omega)]
    refine if_neg ?_
    rintro (hle | hsize | hmax | hdigest)
    · rw [second] at hle
      omega
    · omega
    · rw [maxFileSize] at hmax
      omega
    · exact h.digest_ne hdigest

/-- The zero manifest is not a valid one. -/
theorem Manifest.Valid.ne_zero {m : Manifest} (h : m.Valid) : m ≠ .zero := by
  rintro rfl
  exact absurd h.updated_pos (by decide)

/-- The manifest of an object is valid, for a digest that is not zero. -/
theorem Object.manifest_valid (sha256 : Bytes → Digest) (o : Object)
    (hash : sha256 o.data ≠ Vector.replicate 32 0) : (o.manifest sha256).Valid := by
  obtain ⟨hu, he⟩ := o.dated
  have hlt := (dateSeconds_lt_iff hu he).mpr (o.valid.updated_lt o.updated_ne)
  obtain ⟨n, hn⟩ := hu
  obtain ⟨m, hm⟩ := he
  obtain ⟨hupdated, -, hpos, -⟩ := dateSeconds_date hn
  obtain ⟨hexpires, -, -, hle⟩ := dateSeconds_date hm
  refine ⟨?_, hlt, ?_, o.size_pos, o.size_le, hash⟩
  · show 0 < dateSeconds o.table.updated
    omega
  · show dateSeconds o.table.expiry ≤ _
    omega

/-! ## Messages -/

/-- `ExtensionType`. -/
def extensionType : BitVec 16 := 0xf504

/-- `WireVersion`. -/
def wireVersion : UInt8 := 1

/-- `FieldSize`. -/
def fieldSize : ℕ := 88

/-- `ChunkSize`. -/
def chunkSize : ℕ := 256

/-- `MaxFieldSize`. -/
def maxFieldSize : ℕ := fieldSize + chunkSize

/-- `Probe`. -/
def opProbe : UInt8 := 1

/-- `ManifestReply`. -/
def opManifestReply : UInt8 := 2

/-- `Get`. -/
def opGet : UInt8 := 3

/-- `Data`. -/
def opData : UInt8 := 4

/-- `OK`. -/
def resultOK : BitVec 16 := 0

/-- `NoTable`. -/
def resultNoTable : BitVec 16 := 1

/-- `NotFound`. -/
def resultNotFound : BitVec 16 := 2

/-- `Message`. -/
structure Message where
  operation : UInt8
  result : BitVec 16
  id : Vector UInt8 16
  manifest : Manifest
  offset : BitVec 32
  count : BitVec 16
  data : Bytes
  deriving DecidableEq

/-- The rejection of `validate`. -/
def badMessage : Except Rejection Unit :=
  reject .framing "invalid CLPS operation, length, padding or metadata"

/-- `Message.validate`. -/
def Message.validate (m : Message) : Except Rejection Unit :=
  if m.id = Vector.replicate 16 0 then badMessage
  else if m.manifest ≠ .zero ∧ m.manifest.validate ≠ .ok () then badMessage
  else if m.operation = opProbe then
    if m.result ≠ resultOK ∨ m.offset ≠ 0 ∨ m.count ≠ 0 ∨ m.data.length ≠ 0 then badMessage
    else .ok ()
  else if m.operation = opManifestReply then
    if m.offset ≠ 0 ∨ m.count ≠ 0 ∨ m.data.length ≠ 0 ∨
        (m.result ≠ resultOK ∧ m.result ≠ resultNoTable) ∨
        decide (m.result = resultNoTable) ≠ decide (m.manifest = .zero) then badMessage
    else .ok ()
  else if m.operation = opGet then
    if m.result ≠ resultOK ∨ m.manifest = .zero ∨ m.manifest.size ≤ m.offset.toNat ∨
        m.offset.toNat % chunkSize ≠ 0 ∨ m.count.toNat ≠ chunkSize ∨ m.data.length ≠ 0 then
      badMessage
    else .ok ()
  else if m.operation = opData then
    if m.manifest = .zero ∨ m.manifest.size ≤ m.offset.toNat ∨ m.offset.toNat % chunkSize ≠ 0 then
      badMessage
    else if m.result = resultNotFound then
      if m.count ≠ 0 ∨ m.data.length ≠ 0 then badMessage else .ok ()
    else if m.result ≠ resultOK ∨ m.count.toNat ≠ m.data.length ∨
        m.count.toNat ≠ min chunkSize (m.manifest.size - m.offset.toNat) then badMessage
    else .ok ()
  else badMessage

/-- What `validate` says of the fields that depend on the operation. -/
inductive Message.Shape (m : Message) : Prop where
  | probe (operation : m.operation = opProbe) (result : m.result = resultOK)
      (offset : m.offset = 0) (count : m.count = 0) (data : m.data = [])
  | manifestReply (operation : m.operation = opManifestReply) (offset : m.offset = 0)
      (count : m.count = 0) (data : m.data = [])
      (result : m.result = resultOK ∧ m.manifest ≠ .zero ∨
        m.result = resultNoTable ∧ m.manifest = .zero)
  | get (operation : m.operation = opGet) (result : m.result = resultOK)
      (manifest : m.manifest ≠ .zero) (offset_lt : m.offset.toNat < m.manifest.size)
      (offset_mod : m.offset.toNat % 256 = 0) (count : m.count.toNat = 256) (data : m.data = [])
  | data (operation : m.operation = opData) (manifest : m.manifest ≠ .zero)
      (offset_lt : m.offset.toNat < m.manifest.size) (offset_mod : m.offset.toNat % 256 = 0)
      (count : m.count.toNat = m.data.length)
      (result : m.result = resultNotFound ∧ m.data = [] ∨
        m.result = resultOK ∧ m.data.length = min 256 (m.manifest.size - m.offset.toNat))

/-- What `validate` accepts. -/
structure Message.Valid (m : Message) : Prop where
  id_ne : m.id ≠ Vector.replicate 16 0
  manifest : m.manifest = .zero ∨ m.manifest.Valid
  shape : m.Shape

/-- `validate` rejects in one way. -/
theorem Message.validate_cases (m : Message) : m.validate = .ok () ∨ m.validate = badMessage := by
  have hite : ∀ {c : Prop} [Decidable c] {x y : Except Rejection Unit},
      x = .ok () ∨ x = badMessage → y = .ok () ∨ y = badMessage →
      (if c then x else y) = .ok () ∨ (if c then x else y) = badMessage := by
    intro c _ x y hx hy
    by_cases hc : c
    · rwa [if_pos hc]
    · rwa [if_neg hc]
  have hok : (.ok () : Except Rejection Unit) = .ok () ∨ .ok () = badMessage := .inl rfl
  have hbad : (badMessage : Except Rejection Unit) = .ok () ∨ badMessage = badMessage := .inr rfl
  unfold Message.validate
  refine hite hbad (hite hbad ?_)
  -- one check for each operation; the last one depends on the result too
  refine hite (hite hbad hok) (hite (hite hbad hok) (hite (hite hbad hok) (hite ?_ hbad)))
  exact hite hbad (hite (hite hbad hok) (hite hbad hok))

theorem ite_badMessage {c : Prop} [Decidable c] :
    (if c then badMessage else .ok ()) = .ok () ↔ ¬c :=
  ite_reject.trans (and_iff_left rfl)

/-! The shape of a message, by its operation: the other three contradict it. -/

variable {m : Message}

/-- The shape of a probe. -/
theorem Message.shape_probe (hop : m.operation = opProbe) :
    m.Shape ↔ m.result = resultOK ∧ m.offset = 0 ∧ m.count = 0 ∧ m.data = [] := by
  constructor
  · intro h
    cases h with
    | probe _ result offset count data => exact ⟨result, offset, count, data⟩
    | manifestReply operation => exact absurd (hop.symm.trans operation) (by decide)
    | get operation => exact absurd (hop.symm.trans operation) (by decide)
    | data operation => exact absurd (hop.symm.trans operation) (by decide)
  · rintro ⟨result, offset, count, data⟩
    exact .probe hop result offset count data

/-- The shape of a manifest reply. -/
theorem Message.shape_manifestReply (hop : m.operation = opManifestReply) :
    m.Shape ↔ m.offset = 0 ∧ m.count = 0 ∧ m.data = [] ∧
      (m.result = resultOK ∧ m.manifest ≠ .zero ∨ m.result = resultNoTable ∧
        m.manifest = .zero) := by
  constructor
  · intro h
    cases h with
    | probe operation => exact absurd (hop.symm.trans operation) (by decide)
    | manifestReply _ offset count data result => exact ⟨offset, count, data, result⟩
    | get operation => exact absurd (hop.symm.trans operation) (by decide)
    | data operation => exact absurd (hop.symm.trans operation) (by decide)
  · rintro ⟨offset, count, data, result⟩
    exact .manifestReply hop offset count data result

/-- The shape of a request for a chunk. -/
theorem Message.shape_get (hop : m.operation = opGet) :
    m.Shape ↔ m.result = resultOK ∧ m.manifest ≠ .zero ∧ m.offset.toNat < m.manifest.size ∧
      m.offset.toNat % 256 = 0 ∧ m.count.toNat = 256 ∧ m.data = [] := by
  constructor
  · intro h
    cases h with
    | probe operation => exact absurd (hop.symm.trans operation) (by decide)
    | manifestReply operation => exact absurd (hop.symm.trans operation) (by decide)
    | get _ result manifest offset_lt offset_mod count data =>
        exact ⟨result, manifest, offset_lt, offset_mod, count, data⟩
    | data operation => exact absurd (hop.symm.trans operation) (by decide)
  · rintro ⟨result, manifest, offset_lt, offset_mod, count, data⟩
    exact .get hop result manifest offset_lt offset_mod count data

/-- The shape of a data reply. -/
theorem Message.shape_data (hop : m.operation = opData) :
    m.Shape ↔ (m.manifest ≠ .zero ∧ m.offset.toNat < m.manifest.size ∧ m.offset.toNat % 256 = 0) ∧
      m.count.toNat = m.data.length ∧
      (m.result = resultNotFound ∧ m.data = [] ∨
        m.result = resultOK ∧ m.data.length = min 256 (m.manifest.size - m.offset.toNat)) := by
  constructor
  · intro h
    cases h with
    | probe operation => exact absurd (hop.symm.trans operation) (by decide)
    | manifestReply operation => exact absurd (hop.symm.trans operation) (by decide)
    | get operation => exact absurd (hop.symm.trans operation) (by decide)
    | data _ manifest offset_lt offset_mod count result =>
        exact ⟨⟨manifest, offset_lt, offset_mod⟩, count, result⟩
  · rintro ⟨⟨manifest, offset_lt, offset_mod⟩, count, result⟩
    exact .data hop manifest offset_lt offset_mod count result

/-- The results of a manifest reply, as `validate` compares them. -/
theorem manifestResult_iff :
    (¬(m.result ≠ resultOK ∧ m.result ≠ resultNoTable) ∧
      ¬decide (m.result = resultNoTable) ≠ decide (m.manifest = .zero)) ↔
    (m.result = resultOK ∧ m.manifest ≠ .zero ∨ m.result = resultNoTable ∧ m.manifest = .zero) := by
  have hnot : ¬(resultOK = resultNoTable) := by decide
  by_cases hno : m.result = resultNoTable
  · simp [hno, Ne.symm hnot]
  · by_cases hok : m.result = resultOK
    · simp [hok, hnot]
    · simp [hno, hok]

/-- `Validate` of a message, read as a predicate. -/
theorem Message.validate_ok_iff (m : Message) : m.validate = .ok () ↔ m.Valid := by
  have hlen : m.data.length = 0 ↔ m.data = [] := List.length_eq_zero_iff
  unfold Message.validate
  by_cases hid : m.id = Vector.replicate 16 0
  · rw [if_pos hid]
    exact ⟨nofun, fun h => absurd hid h.id_ne⟩
  rw [if_neg hid]
  by_cases hman : m.manifest ≠ .zero ∧ m.manifest.validate ≠ .ok ()
  · rw [if_pos hman]
    refine ⟨nofun, fun h => absurd h.manifest ?_⟩
    rw [← Manifest.validate_ok_iff]
    exact not_or.mpr hman
  rw [if_neg hman]
  have hmanifest : m.manifest = .zero ∨ m.manifest.Valid := by
    rw [← Manifest.validate_ok_iff]
    by_contra hno
    exact hman (not_or.mp hno)
  suffices hshape : _ ↔ m.Shape from
    hshape.trans ⟨fun h => ⟨hid, hmanifest, h⟩, fun h => h.shape⟩
  by_cases hprobe : m.operation = opProbe
  · rw [if_pos hprobe, ite_badMessage, Message.shape_probe hprobe, not_or, not_or, not_or, not_not,
      not_not, not_not, not_not, hlen]
  rw [if_neg hprobe]
  by_cases hreply : m.operation = opManifestReply
  · rw [if_pos hreply, ite_badMessage, Message.shape_manifestReply hreply, not_or, not_or, not_or,
      not_or, manifestResult_iff, not_not, not_not, not_not, hlen]
  rw [if_neg hreply]
  by_cases hget : m.operation = opGet
  · rw [if_pos hget, ite_badMessage, Message.shape_get hget]
    simp only [not_or, not_not, hlen, not_le, chunkSize, ne_eq]
  rw [if_neg hget]
  by_cases hop : m.operation = opData
  · rw [if_pos hop, Message.shape_data hop]
    by_cases hplace : m.manifest = .zero ∨ m.manifest.size ≤ m.offset.toNat ∨
        m.offset.toNat % chunkSize ≠ 0
    · rw [if_pos hplace]
      refine ⟨nofun, ?_⟩
      rintro ⟨⟨hne, hoffset, hmod⟩, -⟩
      exact absurd hplace (not_or.mpr ⟨hne, not_or.mpr ⟨not_le.mpr hoffset, not_not.mpr hmod⟩⟩)
    rw [if_neg hplace]
    simp only [not_or, not_not, not_le, chunkSize] at hplace
    have hnot : ¬(resultOK = resultNotFound) := by decide
    by_cases hnf : m.result = resultNotFound
    · rw [if_pos hnf, ite_badMessage, not_or, not_not, not_not, hlen]
      constructor
      · rintro ⟨hcount, hdata⟩
        exact ⟨hplace, by simp [hcount, hdata], .inl ⟨hnf, hdata⟩⟩
      · rintro ⟨-, hcount, ⟨-, hdata⟩ | ⟨hok, -⟩⟩
        · refine ⟨BitVec.eq_of_toNat_eq ?_, hdata⟩
          rw [hcount, hdata]
          rfl
        · exact absurd (hok.symm.trans hnf) hnot
    · rw [if_neg hnf, ite_badMessage]
      simp only [not_or, not_not, chunkSize]
      constructor
      · rintro ⟨hok, hcount, hmin⟩
        exact ⟨hplace, hcount, .inr ⟨hok, hcount ▸ hmin⟩⟩
      · rintro ⟨-, hcount, ⟨h, -⟩ | ⟨hok, hmin⟩⟩
        · exact absurd h hnf
        · exact ⟨hok, hcount, hcount.trans hmin⟩
  rw [if_neg hop]
  refine ⟨nofun, fun h => ?_⟩
  cases h with
  | probe operation => exact absurd operation hprobe
  | manifestReply operation => exact absurd operation hreply
  | get operation => exact absurd operation hget
  | data operation => exact absurd operation hop

/-! ## Encoding -/

/-- The text `CLPS`. -/
def clps : Bytes := [0x43, 0x4c, 0x50, 0x53]

/-- The length of the field: the data rounded up to a multiple of four, and room for
a whole chunk in a request for one. -/
def Message.length (m : Message) : ℕ :=
  if m.operation = opGet then maxFieldSize else fieldSize + (m.data.length + 3) / 4 * 4

/-- The field, part by part. -/
def Message.parts (m : Message) : List Bytes :=
  [put 2 extensionType, Octets.bytes 2 m.length, clps, [wireVersion], [m.operation],
    put 2 m.result, m.id.toList, Octets.bytes 8 m.manifest.updated.toNat,
    Octets.bytes 8 m.manifest.expires.toNat, m.manifest.digest.toList,
    Octets.bytes 4 m.manifest.size, put 4 m.offset, put 2 m.count, [0, 0], m.data,
    List.replicate (m.length - fieldSize - m.data.length) 0]

def Message.field (m : Message) : Bytes :=
  m.parts.flatten

/-- `Message.AppendTo`. -/
def Message.appendTo (m : Message) (dst : Bytes) : Except Rejection Bytes :=
  match m.validate with
  | .error r => .error r
  | .ok () => .ok (dst ++ m.field)

/-! ## Decoding -/

/-- The errors of `DecodeFields`: a rejection, or `ErrUnsupported`. -/
inductive FieldsError where
  | rejected (r : Rejection)
  | unsupported
  deriving DecidableEq

/-- The error is about the header or the size of an extension field, rather than about
what a CLPS field holds. -/
def FieldsError.IsHeader (e : FieldsError) : Prop :=
  e = .rejected ⟨.framing, .text "short extension header"⟩ ∨
    e = .rejected ⟨.framing, .text "bad extension size"⟩

instance (e : FieldsError) : Decidable e.IsHeader :=
  inferInstanceAs (Decidable (_ ∨ _))

/-- A rejection of the framing, as a result of the decoder. -/
def badFraming {α : Type} (detail : String) : Option (Except FieldsError α) :=
  some (.error (.rejected ⟨.framing, .text detail⟩))

/-- `allZero`. -/
def allZero (b : Bytes) : Bool :=
  b.all (· == 0)

/-- The number of data bytes and the length of a field with this operation and count. -/
def dataLength (operation : UInt8) (count : BitVec 16) : ℕ :=
  if operation = opData then count.toNat else 0

def expectedLength (operation : UInt8) (count : BitVec 16) : ℕ :=
  if operation = opGet then maxFieldSize
  else if operation = opData then fieldSize + (dataLength operation count + 3) / 4 * 4
  else fieldSize

/-- The fixed part of a CLPS field: the message without its data, and the reserved
word. -/
def fixedPart? (b : Bytes) : Option (Message × BitVec 16) := do
  let operation ← b[9]?
  let result ← slice? b 10 12
  let id ← slice? b 12 28
  let updated ← slice? b 28 36
  let expires ← slice? b 36 44
  let digest ← slice? b 44 76
  let size ← slice? b 76 80
  let offset ← slice? b 80 84
  let count ← slice? b 84 86
  let reserved ← slice? b 86 88
  some
    ({ operation := operation
       result := get 16 result
       id := fill 16 id
       manifest :=
         { updated := Octets.value updated
           expires := Octets.value expires
           digest := fill 32 digest
           size := Octets.value size }
       offset := get 32 offset
       count := get 16 count
       data := [] },
      get 16 reserved)

/-- The message is accepted if it validates. -/
def Message.accept (m : Message) : Option (Except FieldsError (Option Message)) :=
  match m.validate with
  | .error r => some (.error (.rejected r))
  | .ok () => some (.ok (some m))

/-- The rest of a CLPS field, after the fixed part: the data, the padding and the
validation. -/
def dataPart? (b : Bytes) (m : Message) : Option (Except FieldsError (Option Message)) :=
  let n := b.length
  let dataLen := dataLength m.operation m.count
  if expectedLength m.operation m.count ≠ n ∨ n - fieldSize < dataLen then
    badFraming "chunk length disagrees with field"
  else do
    let data ← slice? b fieldSize (fieldSize + dataLen)
    let padding ← slice? b (fieldSize + dataLen) n
    if allZero padding = false then badFraming "padding is nonzero"
    else Message.accept { m with data := data }

/-- The part of `DecodeFields` that reads one CLPS field.  A field with another text
or another version is unsupported: `none` inside. -/
def clps? (b : Bytes) : Option (Except FieldsError (Option Message)) :=
  let n := b.length
  if n < fieldSize ∨ maxFieldSize < n then badFraming "bad CLPS size"
  else do
    let magic ← slice? b 4 8
    let version ← b[8]?
    if magic ≠ clps ∨ version ≠ wireVersion then some (.ok none)
    else do
      let (m, reserved) ← fixedPart? b
      if reserved ≠ 0 then badFraming "reserved data is nonzero"
      else dataPart? b m

/-- One round of the loop of `DecodeFields`, which goes on with `next`. -/
def decodeRound
    (next : Bytes → Option Message → Bool → Bool → Option (Except FieldsError (Option Message)))
    (fields : Bytes) (found : Option Message) (seen unsupported : Bool) :
    Option (Except FieldsError (Option Message)) :=
  if fields.length = 0 then
    if unsupported then some (.error .unsupported) else some (.ok found)
  else if fields.length < 4 then badFraming "short extension header"
  else do
    let n := Octets.value (← slice? fields 2 4)
    if n < 16 ∨ n % 4 ≠ 0 ∨ fields.length < n then badFraming "bad extension size"
    else do
      let b ← slice? fields 0 n
      let rest ← slice? fields n fields.length
      let type ← slice? b 0 2
      if get 16 type ≠ extensionType then next rest found seen unsupported
      else if seen then badFraming "duplicate CLPS fields"
      else
        match ← clps? b with
        | .error e => some (.error e)
        | .ok none => next rest found true true
        | .ok (some m) => next rest (some m) true unsupported

/-- The loop of `DecodeFields`. -/
def decodeLoop : ℕ → Bytes → Option Message → Bool → Bool →
    Option (Except FieldsError (Option Message))
  | 0 => fun _ _ _ _ => none
  | fuel + 1 => decodeRound (decodeLoop fuel)

/-- `DecodeFields`, with its reads checked. -/
def decodeFields? (fields : Bytes) : Option (Except FieldsError (Option Message)) :=
  decodeLoop (fields.length + 1) fields none false false

/-! ## One field -/

/-- What the fixed part holds, without the checks. -/
def fixedOf (b : Bytes) : Message where
  operation := b.getD 9 0
  result := get 16 (b.extract 10 12)
  id := fill 16 (b.extract 12 28)
  manifest :=
    { updated := Octets.value (b.extract 28 36)
      expires := Octets.value (b.extract 36 44)
      digest := fill 32 (b.extract 44 76)
      size := Octets.value (b.extract 76 80) }
  offset := get 32 (b.extract 80 84)
  count := get 16 (b.extract 84 86)
  data := []

/-- The end of the data in a CLPS field. -/
def dataEnd (b : Bytes) : ℕ :=
  88 + dataLength (fixedOf b).operation (fixedOf b).count

/-- The message of a CLPS field, without the checks. -/
def messageOf (b : Bytes) : Message :=
  { fixedOf b with data := b.extract 88 (dataEnd b) }

variable {b : Bytes}

/-- No read of the fixed part is out of range. -/
theorem fixedPart?_eq (h : 88 ≤ b.length) :
    fixedPart? b = some (fixedOf b, get 16 (b.extract 86 88)) := by
  unfold fixedPart?
  simp (disch := omega) only [Octets.getElem?_eq, Octets.slice?_eq]
  rfl

/-- The checks of the data part, with every read in range. -/
theorem dataPart?_eq (h : 88 ≤ b.length) :
    dataPart? b (fixedOf b) =
      if expectedLength (fixedOf b).operation (fixedOf b).count ≠ b.length ∨
          b.length < dataEnd b then badFraming "chunk length disagrees with field"
      else if allZero (b.extract (dataEnd b) b.length) = false then
        badFraming "padding is nonzero"
      else (messageOf b).accept := by
  have hshort : b.length - fieldSize < dataLength (fixedOf b).operation (fixedOf b).count ↔
      b.length < dataEnd b := by
    unfold dataEnd fieldSize
    omega
  unfold dataPart?
  simp only [hshort]
  split
  · rfl
  next hlength =>
    have hend : fieldSize + dataLength (fixedOf b).operation (fixedOf b).count ≤ b.length :=
      not_lt.mp (not_or.mp hlength).2
    rw [Octets.slice?_eq (Nat.le_add_right _ _) hend, Octets.slice?_eq hend (le_refl _)]
    rfl

/-- What the data part of an accepted field looks like. -/
structure Padded (b : Bytes) : Prop where
  length : b.length = expectedLength (fixedOf b).operation (fixedOf b).count
  dataEnd_le : dataEnd b ≤ b.length
  padding : allZero (b.extract (dataEnd b) b.length) = true

/-- **The data part.**  It is read within the field, and accepted only in the one form
in which it is written. -/
theorem dataPart?_spec (h : 88 ≤ b.length) :
    (∃ e, ¬e.IsHeader ∧ dataPart? b (fixedOf b) = some (.error e)) ∨
      (dataPart? b (fixedOf b) = some (.ok (some (messageOf b))) ∧ Padded b ∧
        (messageOf b).validate = .ok ()) := by
  rw [dataPart?_eq h]
  by_cases hlength : expectedLength (fixedOf b).operation (fixedOf b).count ≠ b.length ∨
      b.length < dataEnd b
  · rw [if_pos hlength]
    exact .inl ⟨_, by decide, rfl⟩
  rw [if_neg hlength]
  rw [not_or, not_not, not_lt] at hlength
  by_cases hpadding : allZero (b.extract (dataEnd b) b.length) = false
  · rw [if_pos hpadding]
    exact .inl ⟨_, by decide, rfl⟩
  rw [if_neg hpadding]
  unfold Message.accept
  rcases (messageOf b).validate_cases with hvalid | hvalid
  · rw [hvalid]
    exact .inr ⟨rfl, ⟨hlength.1.symm, hlength.2, by simpa using hpadding⟩, rfl⟩
  · rw [hvalid]
    exact .inl ⟨_, by decide, rfl⟩

/-- The bytes that `DecodeFields` accepts as a CLPS field, apart from `validate`. -/
structure Written (b : Bytes) : Prop extends Padded b where
  length_ge : 88 ≤ b.length
  length_le : b.length ≤ 344
  magic : b.extract 4 8 = clps
  version : b.getD 8 0 = wireVersion
  reserved : get 16 (b.extract 86 88) = 0

/-- The checks of a CLPS field of a possible length, with every read in range. -/
theorem clps?_eq (hge : 88 ≤ b.length) (hle : b.length ≤ 344) :
    clps? b =
      if b.extract 4 8 ≠ clps ∨ b.getD 8 0 ≠ wireVersion then some (.ok none)
      else if get 16 (b.extract 86 88) ≠ 0 then badFraming "reserved data is nonzero"
      else dataPart? b (fixedOf b) := by
  have hsize : ¬(b.length < fieldSize ∨ maxFieldSize < b.length) := by
    simp only [fieldSize, maxFieldSize, chunkSize]
    omega
  unfold clps?
  dsimp only
  rw [if_neg hsize, Octets.slice?_eq (by omega) (by omega), Octets.getElem?_eq (by omega),
    fixedPart?_eq hge]
  rfl

/-- **One CLPS field.** -/
theorem clps?_spec (b : Bytes) :
    (∃ e, ¬e.IsHeader ∧ clps? b = some (.error e)) ∨ clps? b = some (.ok none) ∨
      (clps? b = some (.ok (some (messageOf b))) ∧ Written b ∧
        (messageOf b).validate = .ok ()) := by
  by_cases hsize : b.length < fieldSize ∨ maxFieldSize < b.length
  · exact .inl ⟨_, by decide, if_pos hsize⟩
  simp only [not_or, not_lt, maxFieldSize, fieldSize, chunkSize] at hsize
  obtain ⟨hge, hle⟩ := hsize
  rw [clps?_eq hge hle]
  by_cases hmagic : b.extract 4 8 ≠ clps ∨ b.getD 8 0 ≠ wireVersion
  · rw [if_pos hmagic]
    exact .inr (.inl rfl)
  rw [if_neg hmagic]
  simp only [not_or, not_not] at hmagic
  by_cases hreserved : get 16 (b.extract 86 88) ≠ 0
  · rw [if_pos hreserved]
    exact .inl ⟨_, by decide, rfl⟩
  rw [if_neg hreserved]
  rcases dataPart?_spec hge with ⟨e, he⟩ | ⟨hdata, hpadded, hvalid⟩
  · exact .inl ⟨e, he⟩
  · exact .inr (.inr ⟨hdata, ⟨hpadded, hge, hle, hmagic.1, hmagic.2, not_not.mp hreserved⟩, hvalid⟩)

/-- A field in the written form with a valid message is accepted. -/
theorem clps?_written (h : Written b) (hvalid : (messageOf b).validate = .ok ()) :
    clps? b = some (.ok (some (messageOf b))) := by
  have hlength : ¬(expectedLength (fixedOf b).operation (fixedOf b).count ≠ b.length ∨
      b.length < dataEnd b) :=
    not_or.mpr ⟨not_not.mpr h.length.symm, not_lt.mpr h.dataEnd_le⟩
  rw [clps?_eq h.length_ge h.length_le,
    if_neg (not_or.mpr ⟨not_not.mpr h.magic, not_not.mpr h.version⟩),
    if_neg (not_not.mpr h.reserved), dataPart?_eq h.length_ge, if_neg hlength,
    if_neg (by simp [h.padding])]
  unfold Message.accept
  rw [hvalid]

/-! ## Encoding, then decoding -/

/-- A message fits in a field, padded to whole words. -/
theorem length_bounds (h : m.Valid) :
    88 + m.data.length ≤ m.length ∧ m.length ≤ 344 ∧ m.length % 4 = 0 := by
  unfold Message.length
  simp only [maxFieldSize, fieldSize, chunkSize]
  rcases h.shape with ⟨hop, _, _, _, hdata⟩ | ⟨hop, _, _, hdata, _⟩ | ⟨hop, _, _, _, _, _, hdata⟩ |
    ⟨hop, _, _, _, _, hresult⟩
  · rw [hop, if_neg (by decide), hdata]
    decide
  · rw [hop, if_neg (by decide), hdata]
    decide
  · rw [hop, if_pos rfl, hdata]
    decide
  · rw [hop, if_neg (by decide)]
    have hle : m.data.length ≤ 256 := by
      rcases hresult with ⟨-, hnil⟩ | ⟨-, hmin⟩
      · rw [hnil]
        exact Nat.zero_le _
      · omega
    omega

/-- The field is as long as its header says. -/
theorem field_length (h : m.Valid) : m.field.length = m.length := by
  obtain ⟨hle, -, -⟩ := length_bounds h
  simp [Message.field, Message.parts, clps, fieldSize]
  omega

/-- The parts of the field before the `k`-th take this many bytes. -/
theorem extract_field (m : Message) (k : ℕ) {i j : ℕ} {post : List Bytes} {part : Bytes}
    (hsplit : m.parts = m.parts.take k ++ part :: post)
    (hi : (m.parts.take k).flatten.length = i) (hj : i + part.length = j) :
    m.field.extract i j = part := by
  have h := Octets.extract_flatten hsplit hi hj []
  rwa [List.append_nil] at h

/-- A valid message is written as one extension field. -/
theorem isField_field (h : m.Valid) : IsField m.field := by
  obtain ⟨hge, hle, hmod⟩ := length_bounds h
  have hword : m.field.extract 2 4 = Octets.bytes 2 m.length :=
    extract_field m 1 rfl (by simp [Message.parts]) (by simp)
  refine ⟨?_, ?_, ?_⟩
  · rw [field_length h, Ntp.minExtensionField]
    omega
  · rw [field_length h]
    exact hmod
  · rw [hword, field_length h, Octets.value_bytes (by omega)]

/-- The type of an extension field. -/
def typeOf (b : Bytes) : BitVec 16 :=
  get 16 (b.extract 0 2)

theorem typeOf_field (m : Message) : typeOf m.field = extensionType := by
  have h0 : m.field.extract 0 2 = put 2 extensionType := extract_field m 0 rfl rfl (by simp)
  unfold typeOf
  rw [h0, Octets.get_put (n := 16) rfl]

/-- The numbers of a valid manifest fit in their octets. -/
theorem manifest_bounds (h : m.Valid) :
    0 ≤ m.manifest.updated ∧ m.manifest.updated.toNat < 256 ^ 8 ∧ 0 ≤ m.manifest.expires ∧
      m.manifest.expires.toNat < 256 ^ 8 ∧ m.manifest.size < 256 ^ 4 := by
  rcases h.manifest with hzero | hvalid
  · rw [hzero]
    decide
  · have h1 := hvalid.updated_pos
    have h2 := hvalid.updated_lt
    have h3 := hvalid.expires_le
    have h4 := hvalid.size_le
    refine ⟨by omega, by omega, by omega, by omega, by omega⟩

/-- The fixed part of a written field. -/
theorem fixedOf_field (h : m.Valid) : fixedOf m.field = { m with data := [] } := by
  obtain ⟨hu, hu', he, he', hs⟩ := manifest_bounds h
  have h9 : m.field.getD 9 0 = m.operation := rfl
  have h10 : m.field.extract 10 12 = put 2 m.result :=
    extract_field m 5 rfl (by simp [Message.parts, clps]) (by simp)
  have h12 : m.field.extract 12 28 = m.id.toList :=
    extract_field m 6 rfl (by simp [Message.parts, clps]) (by simp)
  have h28 : m.field.extract 28 36 = Octets.bytes 8 m.manifest.updated.toNat :=
    extract_field m 7 rfl (by simp [Message.parts, clps]) (by simp)
  have h36 : m.field.extract 36 44 = Octets.bytes 8 m.manifest.expires.toNat :=
    extract_field m 8 rfl (by simp [Message.parts, clps]) (by simp)
  have h44 : m.field.extract 44 76 = m.manifest.digest.toList :=
    extract_field m 9 rfl (by simp [Message.parts, clps]) (by simp)
  have h76 : m.field.extract 76 80 = Octets.bytes 4 m.manifest.size :=
    extract_field m 10 rfl (by simp [Message.parts, clps]) (by simp)
  have h80 : m.field.extract 80 84 = put 4 m.offset :=
    extract_field m 11 rfl (by simp [Message.parts, clps]) (by simp)
  have h84 : m.field.extract 84 86 = put 2 m.count :=
    extract_field m 12 rfl (by simp [Message.parts, clps]) (by simp)
  unfold fixedOf
  rw [h9, h10, h12, h28, h36, h44, h76, h80, h84, Octets.value_bytes hu', Octets.value_bytes he',
    Octets.value_bytes hs, Int.toNat_of_nonneg hu, Int.toNat_of_nonneg he,
    Octets.get_put (n := 16) rfl, Octets.get_put (n := 16) rfl, Octets.get_put (n := 32) rfl,
    Octets.fill_toList, Octets.fill_toList]

/-- The data end where the header says. -/
theorem dataEnd_field (h : m.Valid) :
    dataEnd m.field = 88 + m.data.length ∧ m.length = expectedLength m.operation m.count := by
  unfold dataEnd
  rw [fixedOf_field h]
  dsimp only
  unfold dataLength expectedLength Message.length
  rcases h.shape with ⟨hop, _, _, _, hdata⟩ | ⟨hop, _, _, hdata, _⟩ | ⟨hop, _, _, _, _, _, hdata⟩ |
    ⟨hop, _, _, _, hcount, _⟩
  · rw [hop, hdata, if_neg (by decide), if_neg (by decide), if_neg (by decide), if_neg (by decide)]
    exact ⟨rfl, rfl⟩
  · rw [hop, hdata, if_neg (by decide), if_neg (by decide), if_neg (by decide), if_neg (by decide)]
    exact ⟨rfl, rfl⟩
  · rw [hop, hdata, if_neg (by decide), if_pos rfl, if_pos rfl]
    exact ⟨rfl, rfl⟩
  · rw [hop, if_pos rfl, if_neg (by decide), if_neg (by decide), if_pos rfl]
    unfold dataLength
    rw [if_pos rfl, hcount]
    exact ⟨rfl, rfl⟩

/-- The message is read back from its field. -/
theorem messageOf_field (h : m.Valid) : messageOf m.field = m := by
  have hdata : m.field.extract 88 (88 + m.data.length) = m.data :=
    extract_field m 14 rfl (by simp [Message.parts, clps]) rfl
  unfold messageOf
  rw [(dataEnd_field h).1, hdata, fixedOf_field h]

/-- The field of a valid message is one that the encoder writes. -/
theorem written_field (h : m.Valid) : Written m.field := by
  obtain ⟨hge, hle, -⟩ := length_bounds h
  obtain ⟨hend, hexpected⟩ := dataEnd_field h
  have hpadding : m.field.extract (88 + m.data.length) m.length =
      List.replicate (m.length - fieldSize - m.data.length) 0 := by
    refine extract_field m 15 rfl (by simp [Message.parts, clps]; omega) ?_
    rw [List.length_replicate, fieldSize]
    omega
  refine ⟨⟨?_, ?_, ?_⟩, ?_, ?_, ?_, rfl, ?_⟩
  · rw [field_length h, fixedOf_field h, hexpected]
  · rw [field_length h, hend]
    exact hge
  · rw [field_length h, hend, hpadding]
    simp [allZero]
  · rw [field_length h]
    omega
  · rw [field_length h]
    exact hle
  · exact extract_field m 2 rfl (by simp [Message.parts]) rfl
  · have h86 : m.field.extract 86 88 = [0, 0] :=
      extract_field m 13 rfl (by simp [Message.parts, clps]) rfl
    rw [h86]
    decide

/-- **A valid message is read back.** -/
theorem clps?_field (h : m.Valid) : clps? m.field = some (.ok (some m)) := by
  have hmessage := messageOf_field h
  have hvalid : (messageOf m.field).validate = .ok () := by
    rw [hmessage]
    exact m.validate_ok_iff.mpr h
  rw [clps?_written (written_field h) hvalid, hmessage]

/-! ## Decoding, then encoding -/

/-- A written field has the length of its message. -/
theorem messageOf_length (h : Written b) : (messageOf b).length = b.length := by
  have hend := h.dataEnd_le
  have hdata : (messageOf b).data.length = dataLength (fixedOf b).operation (fixedOf b).count := by
    show (b.extract 88 (dataEnd b)).length = _
    rw [Octets.length_extract hend, dataEnd, Nat.add_sub_cancel_left]
  rw [h.length]
  unfold Message.length expectedLength
  rw [hdata]
  change (if (fixedOf b).operation = opGet then _ else _) = _
  by_cases hget : (fixedOf b).operation = opGet
  · rw [if_pos hget, if_pos hget]
  rw [if_neg hget, if_neg hget]
  by_cases hop : (fixedOf b).operation = opData
  · rw [if_pos hop]
  · have hzero : dataLength (fixedOf b).operation (fixedOf b).count = 0 := if_neg hop
    rw [if_neg hop, hzero]
    rfl

theorem allZero_iff : allZero b = true ↔ b = List.replicate b.length 0 := by
  unfold allZero
  rw [List.all_eq_true, List.eq_replicate_iff]
  simp

/-- **An accepted field is the encoding of its message.** -/
theorem field_messageOf (h : Written b) (hfield : IsField b) (htype : typeOf b = extensionType) :
    (messageOf b).field = b := by
  have hge := h.length_ge
  have hend := h.dataEnd_le
  have hend' : 88 ≤ dataEnd b := Nat.le_add_right _ _
  have hparts : (messageOf b).parts =
      Octets.slices b 0
        [2, 4, 8, 9, 10, 12, 28, 36, 44, 76, 80, 84, 86, 88, dataEnd b, b.length] := by
    have h0 : put 2 extensionType = b.extract 0 2 := by
      rw [← htype]
      exact Octets.put_get_extract rfl rfl (by omega)
    have h2 : Octets.bytes 2 (messageOf b).length = b.extract 2 4 := by
      rw [messageOf_length h, ← hfield.2.2]
      exact Octets.bytes_value_extract rfl (by omega)
    have h8 : [wireVersion] = b.extract 8 9 := by
      rw [← h.version]
      exact Octets.singleton_getD (by omega)
    have h86 : [0, 0] = b.extract 86 88 := by
      have hzero : put 2 (get 16 (b.extract 86 88)) = b.extract 86 88 :=
        Octets.put_get_extract rfl rfl (by omega)
      rw [h.reserved] at hzero
      exact hzero
    have hpad : List.replicate ((messageOf b).length - fieldSize - (messageOf b).data.length) 0 =
        b.extract (dataEnd b) b.length := by
      have hlen : (b.extract (dataEnd b) b.length).length =
          (messageOf b).length - fieldSize - (messageOf b).data.length := by
        rw [messageOf_length h, Octets.length_extract (le_refl _)]
        show _ = _ - 88 - (b.extract 88 (dataEnd b)).length
        rw [Octets.length_extract hend]
        omega
      rw [← hlen]
      exact (allZero_iff.mp h.padding).symm
    unfold Message.parts
    rw [h0, h2, ← h.magic, h8, h86, hpad]
    show [_, _, _, _, [b.getD 9 0], put 2 (get 16 (b.extract 10 12)),
      (fill 16 (b.extract 12 28)).toList, Octets.bytes 8 (Octets.value (b.extract 28 36)),
      Octets.bytes 8 (Octets.value (b.extract 36 44)), (fill 32 (b.extract 44 76)).toList,
      Octets.bytes 4 (Octets.value (b.extract 76 80)), put 4 (get 32 (b.extract 80 84)),
      put 2 (get 16 (b.extract 84 86)), _, _, _] = _
    rw [Octets.toList_fill (n := 16) (Octets.length_extract (by omega)),
      Octets.toList_fill (n := 32) (Octets.length_extract (by omega))]
    simp (disch := omega) only [Octets.singleton_getD, Octets.put_get_extract,
      Octets.bytes_value_extract]
    rfl
  have hchain : (0 :: [2, 4, 8, 9, 10, 12, 28, 36, 44, 76, 80, 84, 86, 88, dataEnd b,
      b.length]).IsChain (· ≤ ·) := by
    simp [hend, hend']
  unfold Message.field
  rw [hparts, Octets.flatten_slices b hchain]
  exact List.take_length

/-! ## The scan -/

section Scan

variable {next : Bytes → Option Message → Bool → Bool →
  Option (Except FieldsError (Option Message))}

/-- A round over a text that begins with an extension field. -/
theorem decodeRound_field {f : Bytes} (hf : IsField f) (rest : Bytes) (found : Option Message)
    (seen unsupported : Bool) :
    decodeRound next (f ++ rest) found seen unsupported =
      if typeOf f ≠ extensionType then next rest found seen unsupported
      else if seen then badFraming "duplicate CLPS fields"
      else (clps? f).bind fun
        | .error e => some (.error e)
        | .ok none => next rest found true true
        | .ok (some m) => next rest (some m) true unsupported := by
  obtain ⟨h16, h4, hvalue⟩ := hf
  have h16' : 16 ≤ f.length := h16
  have hlen : (f ++ rest).length = f.length + rest.length := List.length_append
  have hword : (f ++ rest).extract 2 4 = f.extract 2 4 := by
    have h := Octets.extract_inner [] f rest (i := 2) (j := 4) (by omega)
    simpa using h
  have hhead : (f ++ rest).extract 0 f.length = f := by
    rw [Octets.extract_eq_take, List.take_left]
  have htail : (f ++ rest).extract f.length (f ++ rest).length = rest := by
    rw [Octets.extract_eq_drop, List.drop_left]
  unfold decodeRound
  rw [if_neg (by omega), if_neg (by omega), Octets.slice?_eq (by omega) (by omega), hword]
  simp only [Option.bind_eq_bind, Option.bind_some]
  rw [hvalue, if_neg (by omega), Octets.slice?_eq (by omega) (by omega), hhead,
    Octets.slice?_eq (by omega) (le_refl _), htail]
  simp only [Option.bind_some]
  rw [Octets.slice?_eq (by omega) (by omega)]
  rfl

/-- What a round finds: the end, a broken header, or an extension field. -/
theorem decodeRound_cases (fields : Bytes) :
    fields = [] ∨
    (∃ e : FieldsError, e.IsHeader ∧ ∀ next found seen unsupported,
      decodeRound next fields found seen unsupported = some (.error e)) ∨
    ∃ f rest, IsField f ∧ fields = f ++ rest := by
  by_cases hnil : fields.length = 0
  · exact .inl (List.length_eq_zero_iff.mp hnil)
  by_cases hshort : fields.length < 4
  · refine .inr (.inl ⟨.rejected ⟨.framing, .text "short extension header"⟩, .inl rfl, ?_⟩)
    intro next found seen unsupported
    unfold decodeRound
    rw [if_neg hnil, if_pos hshort]
    rfl
  have hslice : slice? fields 2 4 = some (fields.extract 2 4) :=
    Octets.slice?_eq (by omega) (by omega)
  by_cases hbad : Octets.value (fields.extract 2 4) < 16 ∨
    Octets.value (fields.extract 2 4) % 4 ≠ 0 ∨
      fields.length < Octets.value (fields.extract 2 4)
  · refine .inr (.inl ⟨.rejected ⟨.framing, .text "bad extension size"⟩, .inr rfl, ?_⟩)
    intro next found seen unsupported
    unfold decodeRound
    rw [if_neg hnil, if_neg hshort, hslice]
    simp only [Option.bind_eq_bind, Option.bind_some]
    rw [if_pos hbad]
    rfl
  · generalize hn : Octets.value (fields.extract 2 4) = n at hbad
    have hlen : (fields.take n).length = n := by
      rw [List.length_take]
      omega
    have hword : (fields.take n).extract 2 4 = fields.extract 2 4 := by
      have h := Octets.extract_extract fields (i := 0) (j := n) (k := 2) (l := 4) (by omega)
      simpa [Octets.extract_eq_take] using h
    refine .inr (.inr ⟨fields.take n, fields.drop n, ⟨?_, ?_, ?_⟩,
      (List.take_append_drop n fields).symm⟩)
    · rw [hlen, Ntp.minExtensionField]
      omega
    · omega
    · rw [hword, hlen, hn]

end Scan

/-- **The scan ends**, and more fuel does not change its result. -/
theorem decodeLoop_fuel (a b : ℕ) (fields : Bytes) (ha : fields.length < a) (hb : fields.length < b)
    (found : Option Message) (seen unsupported : Bool) :
    decodeLoop a fields found seen unsupported = decodeLoop b fields found seen unsupported := by
  induction a generalizing b fields found seen unsupported with
  | zero => omega
  | succ a ih =>
    obtain ⟨b, rfl⟩ := Nat.exists_eq_add_one_of_ne_zero (Nat.ne_of_gt (Nat.zero_lt_of_lt hb))
    show decodeRound (decodeLoop a) fields found seen unsupported =
      decodeRound (decodeLoop b) fields found seen unsupported
    rcases decodeRound_cases fields with rfl | ⟨e, -, he⟩ | ⟨f, rest, hf, rfl⟩
    · rfl
    · rw [he, he]
    · have h16 : 16 ≤ f.length := hf.1
      rw [List.length_append] at ha hb
      have hrest := ih b rest (by omega) (by omega)
      rw [decodeRound_field hf, decodeRound_field hf]
      simp only [hrest]

/-- The loop ends, with fuel for the octets. -/
theorem decodeLoop_isSome (fuel : ℕ) (fields : Bytes) (hfuel : fields.length < fuel)
    (found : Option Message) (seen unsupported : Bool) :
    (decodeLoop fuel fields found seen unsupported).isSome = true := by
  induction fuel generalizing fields found seen unsupported with
  | zero => omega
  | succ fuel ih =>
    show (decodeRound (decodeLoop fuel) fields found seen unsupported).isSome = true
    rcases decodeRound_cases fields with rfl | ⟨e, -, he⟩ | ⟨f, rest, hf, rfl⟩
    · cases unsupported <;> rfl
    · rw [he]
      rfl
    · have h16 : 16 ≤ f.length := hf.1
      rw [List.length_append] at hfuel
      have hrest := ih rest (by omega)
      rw [decodeRound_field hf]
      split_ifs
      · exact hrest found seen unsupported
      · rfl
      · rcases clps?_spec f with ⟨e, -, he⟩ | hnone | ⟨hsome, -⟩
        · rw [he]
          rfl
        · rw [hnone]
          exact hrest found true true
        · rw [hsome]
          exact hrest _ true unsupported

/-- A message that the scan finds is valid, and its field is among the bytes. -/
theorem decodeLoop_found (fuel : ℕ) (fields : Bytes) (found : Option Message)
    (seen unsupported : Bool)
    (h : decodeLoop fuel fields found seen unsupported = some (.ok (some m))) :
    found = some m ∨ m.Valid ∧ m.length ≤ fields.length := by
  induction fuel generalizing fields found seen unsupported with
  | zero => cases h
  | succ fuel ih =>
    change decodeRound (decodeLoop fuel) fields found seen unsupported = _ at h
    rcases decodeRound_cases fields with rfl | ⟨e, -, he⟩ | ⟨f, rest, hf, rfl⟩
    · cases unsupported with
      | true => cases h
      | false => exact .inl (Except.ok.inj (Option.some.inj h))
    · rw [he] at h
      cases h
    · have hlen : (f ++ rest).length = f.length + rest.length := List.length_append
      have hrest : ∀ {found seen unsupported},
          decodeLoop fuel rest found seen unsupported = some (.ok (some m)) →
          found = some m ∨ m.Valid ∧ m.length ≤ (f ++ rest).length := by
        intro found seen unsupported h
        refine (ih rest found seen unsupported h).imp_right fun ⟨hvalid, hle⟩ => ⟨hvalid, ?_⟩
        omega
      rw [decodeRound_field hf] at h
      split_ifs at h
      · exact hrest h
      · cases h
      · rcases clps?_spec f with ⟨e, -, he⟩ | hnone | ⟨hsome, hwritten, hvalid⟩
        · rw [he] at h
          cases h
        · rw [hnone] at h
          exact hrest h
        · rw [hsome] at h
          rcases hrest h with hm | hm
          · obtain rfl := Option.some.inj hm
            refine .inr ⟨(messageOf f).validate_ok_iff.mp hvalid, ?_⟩
            rw [messageOf_length hwritten]
            omega
          · exact .inr hm

/-- So the walk over the fields is total. -/
theorem decodeFields?_isSome (fields : Bytes) : (decodeFields? fields).isSome = true :=
  decodeLoop_isSome _ fields (by omega) none false false

/-- `DecodeFields`. -/
def decodeFields (fields : Bytes) : Except FieldsError (Option Message) :=
  (decodeFields? fields).get (decodeFields?_isSome fields)

theorem decodeFields?_eq (fields : Bytes) : decodeFields? fields = some (decodeFields fields) :=
  (Option.some_get _).symm

/-- What is found is valid and was in the packet. -/
theorem decodeFields_found {fields : Bytes} (h : decodeFields fields = .ok (some m)) :
    m.Valid ∧ m.length ≤ fields.length := by
  have hloop : decodeLoop (fields.length + 1) fields none false false = some (.ok (some m)) := by
    rw [← h]
    exact decodeFields?_eq fields
  exact (decodeLoop_found _ _ _ _ _ hloop).resolve_left nofun

/-- Over extension fields the scan reports no broken header. -/
theorem decodeLoop_tiled (fuel : ℕ) {fields : List Bytes} (hfields : ∀ f ∈ fields, IsField f)
    (found : Option Message) (seen unsupported : Bool) {e : FieldsError}
    (h : decodeLoop fuel fields.flatten found seen unsupported = some (.error e)) :
    ¬e.IsHeader := by
  induction fuel generalizing fields found seen unsupported with
  | zero => cases h
  | succ fuel ih =>
    change decodeRound (decodeLoop fuel) fields.flatten found seen unsupported = _ at h
    cases fields with
    | nil =>
      cases unsupported with
      | true =>
        obtain rfl : FieldsError.unsupported = e := by injection Option.some.inj h
        decide
      | false => cases h
    | cons f fields =>
      have hrest : ∀ {found seen unsupported},
          decodeLoop fuel fields.flatten found seen unsupported = some (.error e) → ¬e.IsHeader :=
        fun h => ih (fun g hg => hfields g (List.mem_cons_of_mem f hg)) _ _ _ h
      rw [List.flatten_cons, decodeRound_field (hfields f List.mem_cons_self)] at h
      split_ifs at h
      · exact hrest h
      · obtain rfl := Except.error.inj (Option.some.inj h)
        decide
      · rcases clps?_spec f with ⟨e', hnot, he'⟩ | hnone | ⟨hsome, -⟩
        · rw [he'] at h
          obtain rfl : e' = e := by injection Option.some.inj h
          exact hnot
        · rw [hnone] at h
          exact hrest h
        · rw [hsome] at h
          exact hrest h

/-- Fields of other types are skipped. -/
theorem decodeLoop_others {fields : List Bytes} (hfields : ∀ f ∈ fields, IsField f)
    (htypes : ∀ f ∈ fields, typeOf f ≠ extensionType) (rest : Bytes) (fuel : ℕ)
    (found : Option Message) (seen unsupported : Bool) :
    decodeLoop (fuel + fields.length) (fields.flatten ++ rest) found seen unsupported =
      decodeLoop fuel rest found seen unsupported := by
  induction fields generalizing fuel with
  | nil => rfl
  | cons f fields ih =>
    have hrest := ih (fun g hg => hfields g (List.mem_cons_of_mem f hg))
      (fun g hg => htypes g (List.mem_cons_of_mem f hg)) fuel
    rw [List.length_cons, ← Nat.add_assoc, List.flatten_cons, List.append_assoc]
    show decodeRound (decodeLoop (fuel + fields.length)) _ _ _ _ = _
    rw [decodeRound_field (hfields f List.mem_cons_self), if_pos (htypes f List.mem_cons_self)]
    exact hrest

/-- The result of a scan that meets one field of interest. -/
def scanOne (c : Bytes) : Option (Except FieldsError (Option Message)) :=
  if typeOf c ≠ extensionType then some (.ok none)
  else (clps? c).bind fun
    | .error e => some (.error e)
    | .ok none => some (.error .unsupported)
    | .ok (some m) => some (.ok (some m))

/-- **One field among others.** -/
theorem decodeFields?_one {before after : List Bytes} {c : Bytes}
    (hbefore : ∀ f ∈ before, IsField f ∧ typeOf f ≠ extensionType)
    (hafter : ∀ f ∈ after, IsField f ∧ typeOf f ≠ extensionType) (hc : IsField c) :
    decodeFields? (before.flatten ++ (c ++ after.flatten)) = scanOne c := by
  have hlen : (before.flatten ++ (c ++ after.flatten)).length =
      before.flatten.length + c.length + after.flatten.length := by
    simp only [List.length_append]
    omega
  have hend : ∀ found seen unsupported,
      decodeLoop (c.length + before.flatten.length + after.flatten.length + 1 + after.length)
        after.flatten found seen unsupported =
      if unsupported then some (.error .unsupported) else some (.ok found) := by
    intro found seen unsupported
    have h := decodeLoop_others (fun f hf => (hafter f hf).1) (fun f hf => (hafter f hf).2) []
      (c.length + before.flatten.length + after.flatten.length + 1) found seen unsupported
    rw [List.append_nil] at h
    rw [h]
    rfl
  unfold decodeFields? scanOne
  rw [decodeLoop_fuel _ (c.length + before.flatten.length + after.flatten.length +
    1 + after.length + 1 +
      before.length) _ (by omega) (by omega),
    decodeLoop_others (fun f hf => (hbefore f hf).1) (fun f hf => (hbefore f hf).2)]
  show decodeRound (decodeLoop _) (c ++ after.flatten) none false false = _
  rw [decodeRound_field hc]
  simp only [hend]
  rfl

/-- A single field is scanned as such. -/
theorem decodeFields?_single {c : Bytes} (hc : IsField c) : decodeFields? c = scanOne c := by
  have h := @decodeFields?_one [] [] c nofun nofun hc
  rwa [List.flatten_nil, List.nil_append, List.append_nil] at h

/-- A field that was written is found. -/
theorem decodeFields_field (h : m.Valid) : decodeFields m.field = .ok (some m) := by
  have hscan : decodeFields? m.field = some (.ok (some m)) := by
    rw [decodeFields?_single (isField_field h), scanOne, if_neg (not_not.mpr (typeOf_field m)),
      clps?_field h]
    rfl
  rw [decodeFields?_eq] at hscan
  exact Option.some.inj hscan

/-- What the scan accepts in one CLPS field is in the written form. -/
theorem written_of_decodeFields {c : Bytes} (hc : IsField c) (htype : typeOf c = extensionType)
    (h : decodeFields c = .ok (some m)) :
    Written c ∧ m = messageOf c ∧ m.validate = .ok () := by
  have hscan : scanOne c = some (.ok (some m)) := by
    rw [← decodeFields?_single hc, decodeFields?_eq, h]
  rw [scanOne, if_neg (not_not.mpr htype)] at hscan
  rcases clps?_spec c with ⟨e, -, he⟩ | hnone | ⟨hsome, hwritten, hvalid⟩
  · rw [he] at hscan
    cases hscan
  · rw [hnone] at hscan
    cases hscan
  · rw [hsome] at hscan
    obtain rfl : messageOf c = m := Option.some.inj (Except.ok.inj (Option.some.inj hscan))
    exact ⟨hwritten, rfl, hvalid⟩

/-- **The codec is a bijection on valid messages.**  What is written is read back, what
is read from one CLPS field is what was written, and fields of other types around it
change nothing. -/
theorem clps_codec :
    (∀ m : Message, m.validate = .ok () →
      ∃ b, m.appendTo [] = .ok b ∧ decodeFields b = .ok (some m)) ∧
    (∀ (b : Bytes) (m : Message), IsField b → typeOf b = extensionType →
      decodeFields b = .ok (some m) → m.appendTo [] = .ok b) ∧
    ∀ (before after : List Bytes) (c : Bytes),
      (∀ f ∈ before, IsField f ∧ typeOf f ≠ extensionType) →
      (∀ f ∈ after, IsField f ∧ typeOf f ≠ extensionType) → IsField c →
      decodeFields (before.flatten ++ (c ++ after.flatten)) = decodeFields c := by
  have happend : ∀ m : Message, m.validate = .ok () → m.appendTo [] = .ok m.field := by
    intro m hvalid
    unfold Message.appendTo
    rw [hvalid, List.nil_append]
  refine ⟨?_, ?_, ?_⟩
  · intro m hvalid
    exact ⟨m.field, happend m hvalid, decodeFields_field (m.validate_ok_iff.mp hvalid)⟩
  · intro b m hfield htype h
    obtain ⟨hwritten, rfl, hvalid⟩ := written_of_decodeFields hfield htype h
    rw [happend _ hvalid, field_messageOf hwritten hfield htype]
  · intro before after c hbefore hafter hc
    apply Option.some.inj
    rw [← decodeFields?_eq, ← decodeFields?_eq, decodeFields?_one hbefore hafter hc,
      decodeFields?_single hc]

/-- The last five bytes of a file of 261. -/
def lastChunk : Message :=
  { operation := opData, result := resultOK, id := Vector.replicate 16 7,
    manifest := ⟨2281000000, 2315000000, Vector.replicate 32 9, 261⟩, offset := 256, count := 5,
    data := [0x31, 0x32, 0x09, 0x33, 0x0A] }

/-- The reply is padded with three bytes, and read back without them. -/
theorem clps_codec_lastChunk :
    lastChunk.validate = .ok () ∧ ∃ b, lastChunk.appendTo [] = .ok b ∧
      b.drop 88 = [0x31, 0x32, 0x09, 0x33, 0x0A, 0, 0, 0] ∧
      decodeFields b = .ok (some lastChunk) := by
  have hvalid : lastChunk.validate = .ok () := by decide
  obtain ⟨b, hb, hread⟩ := clps_codec.1 lastChunk hvalid
  have htail : (lastChunk.appendTo []).map (·.drop 88)
      = .ok [0x31, 0x32, 0x09, 0x33, 0x0A, 0, 0, 0] := by decide +kernel
  rw [hb] at htail
  exact ⟨hvalid, b, hb, Except.ok.inj htail, hread⟩

/-! ## The two parsers agree on the framing -/

/-- **Framing is total and exact.**  `Decode` returns on every byte string; headers of
the versions 1 to 4 are encoded and decoded without loss; extension fields followed by
a MAC, or by nothing where the last field is at least 28 bytes long, end exactly where
`Decode` finds the MAC or the end; and where `Decode` succeeds, the bytes up to the MAC
are tiled by extension fields, in which `DecodeFields` finds no broken header. -/
theorem framing_exact :
    (∀ b : Bytes, (Ntp.decode? b).isSome = true) ∧
    (∀ p : Ntp.Packet, Ntp.Supported p.version →
      Ntp.decode? p.marshal = some (.ok ⟨p, none, 48⟩)) ∧
    (∀ (b : Bytes) (d : Ntp.Decoded), Ntp.decode? b = some (.ok d) →
      Ntp.Supported d.packet.version ∧ d.packet.marshal = b.take 48) ∧
    (∀ (p : Ntp.Packet) (fields : List Bytes) (tail : Bytes), Ntp.Supported p.version →
      (∀ f ∈ fields, IsField f) → Ntp.Ends fields tail →
      Ntp.decode? (p.marshal ++ fields.flatten ++ tail) =
        some (.ok ⟨p, Ntp.macOf tail, 48 + fields.flatten.length⟩)) ∧
    ∀ (b : Bytes) (d : Ntp.Decoded), Ntp.decode? b = some (.ok d) →
      48 ≤ d.macOffset ∧ d.macOffset ≤ b.length ∧ Tiled IsField (b.extract 48 d.macOffset) ∧
        ∀ e, decodeFields? (b.extract 48 d.macOffset) = some (.error e) → ¬e.IsHeader := by
  have hframed : ∀ (b : Bytes) (d : Ntp.Decoded), Ntp.decode? b = some (.ok d) →
      Ntp.Framed b d := by
    intro b d h
    rw [Ntp.decode?_eq] at h
    exact Ntp.framed_of_decode (Option.some.inj h)
  refine ⟨Ntp.decode?_isSome, ?_, ?_, ?_, ?_⟩
  · intro p hp
    have h := Ntp.decode_framed p hp [] nofun [] (.inr (.inr ⟨rfl, nofun⟩))
    rw [List.flatten_nil, List.append_nil, List.append_nil] at h
    rw [Ntp.decode?_eq, h]
    rfl
  · intro b d h
    have hd := hframed b d h
    refine ⟨hd.version, ?_⟩
    rw [hd.packet]
    exact Ntp.marshal_headerOf hd.length
  · intro p fields tail hp hfields hends
    rw [Ntp.decode?_eq, Ntp.decode_framed p hp fields hfields tail hends]
  · intro b d h
    have hd := hframed b d h
    refine ⟨hd.offset_ge, hd.offset_le, hd.tiled, ?_⟩
    intro e he
    obtain ⟨fields, hfields, hflat⟩ := hd.tiled
    rw [← hflat] at he
    exact decodeLoop_tiled _ hfields none false false he

end Carillon.Leap
