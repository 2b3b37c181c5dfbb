/-
# The NTP packet: header, extension fields and MAC trailer

`Decode` reads the 48-byte header and finds the MAC behind the extension fields.
Every index and slice of the source is checked here, and the loop over the fields has
the length of the packet as its fuel: `decode?` is `none` where the source would
panic or not return.  It never is (`decode?_isSome`), and `decode` is the total
function.

The fields and the MAC are told apart by the number of bytes that are left.  The two
directions are `skipFields_spec` (what was skipped is a sequence of extension fields)
and `skipFields_fields` (a sequence of fields is skipped exactly).
-/
import Carillon.Ntp
import Carillon.Lib.Octets

namespace Carillon.Ntp

open Octets (get put slice? fill Tiled)

/-! ## Packets -/

/-- `Mode`, the three-bit association mode. -/
inductive Mode where
  | reserved
  | symmetricActive
  | symmetricPassive
  | client
  | server
  | broadcast
  | control
  | privateUse
  deriving DecidableEq, Repr

/-- `Short`, the 32-bit format of root delay and root dispersion. -/
abbrev Short := BitVec 32

/-- `Time`, a 64-bit timestamp. -/
abbrev Time := BitVec 64

/-- `Packet`, the decoded header. -/
structure Packet where
  leap : Leap
  version : UInt8
  mode : Mode
  stratum : UInt8
  poll : Int8
  precision : Int8
  rootDelay : Short
  rootDispersion : Short
  referenceID : RefID
  referenceTime : Time
  originTime : Time
  receiveTime : Time
  transmitTime : Time
  deriving DecidableEq

/-- `MAC`, the trailer.  A crypto-NAK has key id 0 and no digest. -/
structure MAC where
  keyID : BitVec 32
  digest : List UInt8
  deriving DecidableEq

/-- `IsCryptoNAK`. -/
def MAC.isCryptoNAK (m : MAC) : Bool :=
  decide (m.keyID = 0) && m.digest.isEmpty

/-- `IsKiss`. -/
def Packet.isKiss (p : Packet) : Bool :=
  decide (p.stratum = 0)

/-- `Version`. -/
def version : UInt8 := 4

/-- `HeaderSize`. -/
def headerSize : ℕ := 48

/-- `MaxPacketSize`. -/
def maxPacketSize : ℕ := 1500

/-- `MACSizeCMAC`. -/
def macSizeCMAC : ℕ := 4 + 16

/-- `macSizeSHA1`. -/
def macSizeSHA1 : ℕ := 4 + 20

/-- `CryptoNAKSize`. -/
def cryptoNAKSize : ℕ := 4

/-- `minExtensionField`. -/
def minExtensionField : ℕ := 16

/-- The errors of `Decode`. -/
inductive DecodeError where
  | short
  | version (v : UInt8)
  | trailer
  deriving DecidableEq

/-! ## The first byte -/

/-- `Leap(b)`, for two bits. -/
def Leap.ofBits (b : UInt8) : Leap :=
  if b = 0 then .none else if b = 1 then .insert else if b = 2 then .delete else .unsync

def Leap.toByte : Leap → UInt8
  | .none => 0
  | .insert => 1
  | .delete => 2
  | .unsync => 3

/-- `Mode(b)`, for three bits. -/
def Mode.ofBits (b : UInt8) : Mode :=
  if b = 0 then .reserved else if b = 1 then .symmetricActive
  else if b = 2 then .symmetricPassive else if b = 3 then .client
  else if b = 4 then .server else if b = 5 then .broadcast
  else if b = 6 then .control else .privateUse

def Mode.toByte : Mode → UInt8
  | .reserved => 0
  | .symmetricActive => 1
  | .symmetricPassive => 2
  | .client => 3
  | .server => 4
  | .broadcast => 5
  | .control => 6
  | .privateUse => 7

/-- The leap indicator, the version and the mode in one byte. -/
def Packet.headByte (p : Packet) : UInt8 :=
  p.leap.toByte <<< 6 ||| (p.version &&& 0x7) <<< 3 ||| (p.mode.toByte &&& 0x7)

/-- The version is one that `Decode` accepts. -/
def Supported (v : UInt8) : Prop :=
  v ≠ 0 ∧ v ≤ version

instance (v : UInt8) : Decidable (Supported v) :=
  inferInstanceAs (Decidable (v ≠ 0 ∧ v ≤ version))

theorem supported_iff {v : UInt8} : Supported v ↔ v = 1 ∨ v = 2 ∨ v = 3 ∨ v = 4 := by
  have h : ∀ n : Fin 256, Supported (UInt8.ofNat n) ↔ UInt8.ofNat n = 1 ∨ UInt8.ofNat n = 2 ∨
      UInt8.ofNat n = 3 ∨ UInt8.ofNat n = 4 := by
    decide +kernel
  simpa using h ⟨v.toNat, v.toNat_lt⟩

theorem headByte_fields (p : Packet) (h : Supported p.version) :
    Leap.ofBits (p.headByte >>> 6) = p.leap ∧ p.headByte >>> 3 &&& 0x7 = p.version ∧
      Mode.ofBits (p.headByte &&& 0x7) = p.mode := by
  unfold Packet.headByte
  generalize p.leap = leap
  generalize p.mode = mode
  rcases supported_iff.mp h with hv | hv | hv | hv <;> rw [hv] <;> cases leap <;> cases mode <;>
    decide

theorem headByte_eq (p : Packet) (b : UInt8) (hleap : p.leap = Leap.ofBits (b >>> 6))
    (hversion : p.version = b >>> 3 &&& 0x7) (hmode : p.mode = Mode.ofBits (b &&& 0x7)) :
    p.headByte = b := by
  have h : ∀ n : Fin 256, (Leap.ofBits (UInt8.ofNat n >>> 6)).toByte <<< 6 |||
      ((UInt8.ofNat n >>> 3 &&& 0x7) &&& 0x7) <<< 3 |||
      ((Mode.ofBits (UInt8.ofNat n &&& 0x7)).toByte &&& 0x7) = UInt8.ofNat n := by
    decide +kernel
  unfold Packet.headByte
  rw [hleap, hversion, hmode]
  simpa using h ⟨b.toNat, b.toNat_lt⟩

/-! ## The header -/

/-- The header, field by field. -/
def Packet.fields (p : Packet) : List (List UInt8) :=
  [[p.headByte], [p.stratum], [p.poll.toUInt8], [p.precision.toUInt8],
    put 4 p.rootDelay, put 4 p.rootDispersion, p.referenceID.bytes.toList,
    put 8 p.referenceTime, put 8 p.originTime, put 8 p.receiveTime, put 8 p.transmitTime]

/-- `Marshal`. -/
def Packet.marshal (p : Packet) : List UInt8 :=
  p.fields.flatten

/-- `AppendTo`. -/
def Packet.appendTo (p : Packet) (dst : List UInt8) : List UInt8 :=
  dst ++ p.marshal

/-- The header part of `Decode`. -/
def decodeHeader? (b : List UInt8) : Option (Except DecodeError Packet) :=
  if b.length < headerSize then some (.error .short)
  else do
    let b0 ← b[0]?
    let v := b0 >>> 3 &&& 0x7
    if v = 0 ∨ version < v then some (.error (.version v))
    else do
      let stratum ← b[1]?
      let poll ← b[2]?
      let precision ← b[3]?
      let rootDelay ← slice? b 4 8
      let rootDispersion ← slice? b 8 12
      let referenceID ← slice? b 12 16
      let referenceTime ← slice? b 16 24
      let originTime ← slice? b 24 32
      let receiveTime ← slice? b 32 40
      let transmitTime ← slice? b 40 48
      some (.ok
        { leap := Leap.ofBits (b0 >>> 6)
          version := v
          mode := Mode.ofBits (b0 &&& 0x7)
          stratum := stratum
          poll := poll.toInt8
          precision := precision.toInt8
          rootDelay := get 32 rootDelay
          rootDispersion := get 32 rootDispersion
          referenceID := ⟨fill 4 referenceID⟩
          referenceTime := get 64 referenceTime
          originTime := get 64 originTime
          receiveTime := get 64 receiveTime
          transmitTime := get 64 transmitTime })

/-- What the header fields hold, without the checks. -/
def headerOf (b : List UInt8) : Packet where
  leap := Leap.ofBits (b.getD 0 0 >>> 6)
  version := b.getD 0 0 >>> 3 &&& 0x7
  mode := Mode.ofBits (b.getD 0 0 &&& 0x7)
  stratum := b.getD 1 0
  poll := (b.getD 2 0).toInt8
  precision := (b.getD 3 0).toInt8
  rootDelay := get 32 (b.extract 4 8)
  rootDispersion := get 32 (b.extract 8 12)
  referenceID := ⟨fill 4 (b.extract 12 16)⟩
  referenceTime := get 64 (b.extract 16 24)
  originTime := get 64 (b.extract 24 32)
  receiveTime := get 64 (b.extract 32 40)
  transmitTime := get 64 (b.extract 40 48)

variable {b : List UInt8}

theorem decodeHeader?_short (h : b.length < 48) :
    decodeHeader? b = some (.error .short) :=
  if_pos h

/-- No read of the header is out of range. -/
theorem decodeHeader?_eq (h : 48 ≤ b.length) :
    decodeHeader? b = some (if Supported (headerOf b).version then .ok (headerOf b)
      else .error (.version (headerOf b).version)) := by
  unfold decodeHeader?
  rw [if_neg (by simpa [headerSize] using h)]
  simp (disch := omega) only [Octets.getElem?_eq, Octets.slice?_eq]
  by_cases hv : Supported (headerOf b).version
  · rw [if_pos hv]
    exact if_neg fun hbad => hbad.elim hv.1 fun hlt => absurd hv.2 (UInt8.not_le.mpr hlt)
  · rw [if_neg hv]
    refine if_pos ?_
    by_contra hgood
    rw [not_or, UInt8.not_lt] at hgood
    exact hv hgood

theorem marshal_length (p : Packet) : p.marshal.length = 48 := by
  simp [Packet.marshal, Packet.fields]

/-- **Encoding, then decoding.** -/
theorem headerOf_marshal (p : Packet) (h : Supported p.version) (rest : List UInt8) :
    headerOf (p.marshal ++ rest) = p := by
  obtain ⟨hleap, hversion, hmode⟩ := headByte_fields p h
  have hfield : ∀ (k : ℕ) {i j : ℕ} {post : List (List UInt8)} {m : List UInt8},
      p.fields = p.fields.take k ++ m :: post → (p.fields.take k).flatten.length = i →
      i + m.length = j → (p.marshal ++ rest).extract i j = m :=
    fun _ _ _ _ _ hsplit hi hj => Octets.extract_flatten hsplit hi hj rest
  have h4 : (p.marshal ++ rest).extract 4 8 = put 4 p.rootDelay :=
    hfield 4 rfl rfl (by simp)
  have h8 : (p.marshal ++ rest).extract 8 12 = put 4 p.rootDispersion :=
    hfield 5 rfl (by simp [Packet.fields]) (by simp)
  have h12 : (p.marshal ++ rest).extract 12 16 = p.referenceID.bytes.toList :=
    hfield 6 rfl (by simp [Packet.fields]) (by simp)
  have h16 : (p.marshal ++ rest).extract 16 24 = put 8 p.referenceTime :=
    hfield 7 rfl (by simp [Packet.fields]) (by simp)
  have h24 : (p.marshal ++ rest).extract 24 32 = put 8 p.originTime :=
    hfield 8 rfl (by simp [Packet.fields]) (by simp)
  have h32 : (p.marshal ++ rest).extract 32 40 = put 8 p.receiveTime :=
    hfield 9 rfl (by simp [Packet.fields]) (by simp)
  have h40 : (p.marshal ++ rest).extract 40 48 = put 8 p.transmitTime :=
    hfield 10 rfl (by simp [Packet.fields]) (by simp)
  unfold headerOf
  rw [h4, h8, h12, h16, h24, h32, h40]
  simp only [Octets.get_put (w := 4) rfl, Octets.get_put (w := 8) rfl, Octets.fill_toList]
  show Packet.mk (Leap.ofBits (p.headByte >>> 6)) (p.headByte >>> 3 &&& 0x7)
    (Mode.ofBits (p.headByte &&& 0x7)) _ _ _ _ _ _ _ _ _ _ = p
  rw [hleap, hversion, hmode]
  rfl

/-- **Decoding, then encoding.** -/
theorem marshal_headerOf (h : 48 ≤ b.length) :
    (headerOf b).marshal = b.take 48 := by
  have hfields : (headerOf b).fields =
      Octets.slices b 0 [1, 2, 3, 4, 8, 12, 16, 24, 32, 40, 48] := by
    have h0 : [(headerOf b).headByte] = b.extract 0 1 := by
      rw [headByte_eq (headerOf b) (b.getD 0 0) rfl rfl rfl]
      exact Octets.singleton_getD (by omega)
    unfold Packet.fields
    rw [h0]
    show [_, [b.getD 1 0], [b.getD 2 0], [b.getD 3 0], put 4 (get 32 (b.extract 4 8)),
      put 4 (get 32 (b.extract 8 12)), (fill 4 (b.extract 12 16)).toList,
      put 8 (get 64 (b.extract 16 24)), put 8 (get 64 (b.extract 24 32)),
      put 8 (get 64 (b.extract 32 40)), put 8 (get 64 (b.extract 40 48))] = _
    rw [Octets.toList_fill (n := 4) (Octets.length_extract (by omega))]
    simp (disch := omega) only [Octets.singleton_getD, Octets.put_get_extract]
    rfl
  unfold Packet.marshal
  rw [hfields]
  exact Octets.flatten_slices b (by decide)

/-! ## Extension fields and the trailer -/

/-- An extension field: its length is a multiple of four, at least 16, and written in
its third and fourth byte. -/
def IsField (f : List UInt8) : Prop :=
  minExtensionField ≤ f.length ∧ f.length % 4 = 0 ∧ Octets.value (f.extract 2 4) = f.length

instance (f : List UInt8) : Decidable (IsField f) :=
  inferInstanceAs (Decidable (_ ∧ _ ∧ _))

/-- The loop of `Decode` over the extension fields.  `none` is a read out of range or
a loop that does not end. -/
def skipFields (b : List UInt8) : ℕ → ℕ → Option (Except DecodeError ℕ)
  | 0, _ => none
  | fuel + 1, off =>
    if macSizeSHA1 < b.length - off then
      if b.length - off < 4 then some (.error .trailer)
      else do
        let l := Octets.value (← slice? b (off + 2) (off + 4))
        if l < minExtensionField ∨ l % 4 ≠ 0 ∨ b.length < off + l then some (.error .trailer)
        else skipFields b fuel (off + l)
    else some (.ok off)

/-- The end of `Decode`: what is left is no trailer, a crypto-NAK or a MAC. -/
def trailer? (b : List UInt8) (off : ℕ) : Option (Except DecodeError (Option MAC × ℕ)) :=
  let rest := b.length - off
  if rest = 0 then some (.ok (none, b.length))
  else if rest = cryptoNAKSize then do
    let word ← slice? b off (off + 4)
    if get 32 word ≠ 0 then some (.error .trailer) else some (.ok (some ⟨0, []⟩, off))
  else if rest = macSizeCMAC ∨ rest = macSizeSHA1 then do
    let keyID ← slice? b off (off + 4)
    let digest ← slice? b (off + 4) b.length
    some (.ok (some ⟨get 32 keyID, digest⟩, off))
  else some (.error .trailer)

/-- A decoded packet: the header, the MAC and the offset where the MAC begins. -/
structure Decoded where
  packet : Packet
  mac : Option MAC
  macOffset : ℕ
  deriving DecidableEq

/-- `Decode`, with its reads checked. -/
def decode? (b : List UInt8) : Option (Except DecodeError Decoded) := do
  match ← decodeHeader? b with
  | .error e => some (.error e)
  | .ok p =>
    match ← skipFields b b.length headerSize with
    | .error e => some (.error e)
    | .ok off =>
      match ← trailer? b off with
      | .error e => some (.error e)
      | .ok (mac, macOffset) => some (.ok ⟨p, mac, macOffset⟩)

/-- **The loop ends, within the packet.**  What it has skipped is tiled by extension
fields, and no more than a MAC is left. -/
theorem skipFields_spec (b : List UInt8) (fuel off : ℕ) (hoff : off ≤ b.length)
    (hfuel : b.length - off < fuel) :
    skipFields b fuel off = some (.error .trailer) ∨
      ∃ k, skipFields b fuel off = some (.ok k) ∧ off ≤ k ∧ k ≤ b.length ∧ b.length - k ≤ 24 ∧
        Tiled IsField (b.extract off k) := by
  induction fuel generalizing off with
  | zero => omega
  | succ fuel ih =>
    unfold skipFields
    by_cases hmore : macSizeSHA1 < b.length - off
    · have h24 : 24 < b.length - off := hmore
      rw [if_pos hmore, if_neg (by omega), Octets.slice?_eq (by omega) (by omega)]
      simp only [Option.bind_eq_bind, Option.bind_some]
      generalize hl : Octets.value (b.extract (off + 2) (off + 4)) = l
      by_cases hbad : l < minExtensionField ∨ l % 4 ≠ 0 ∨ b.length < off + l
      · rw [if_pos hbad]
        exact .inl rfl
      · rw [if_neg hbad]
        have h16 : 16 ≤ l := by
          by_contra hlt
          exact hbad (.inl (by simpa [minExtensionField] using hlt))
        have h4 : l % 4 = 0 := by
          by_contra hne
          exact hbad (.inr (.inl hne))
        have hend : off + l ≤ b.length := by
          by_contra hlt
          exact hbad (.inr (.inr (by omega)))
        have hfield : IsField (b.extract off (off + l)) := by
          have hlen : (b.extract off (off + l)).length = l := by
            rw [Octets.length_extract hend]
            omega
          have hword : (b.extract off (off + l)).extract 2 4 = b.extract (off + 2) (off + 4) := by
            exact Octets.extract_extract b (by omega)
          refine ⟨?_, ?_, ?_⟩
          · rw [hlen]
            exact h16
          · rw [hlen]
            exact h4
          · rw [hlen, hword, hl]
        rcases ih (off + l) hend (by omega) with herr | ⟨k, hk, hle, hkb, hrest, htiled⟩
        · exact .inl herr
        · refine .inr ⟨k, hk, by omega, hkb, hrest, ?_⟩
          rw [← Octets.extract_append_extract b (show off ≤ off + l by omega) hle]
          exact htiled.cons hfield
    · rw [if_neg hmore]
      refine .inr ⟨off, rfl, le_refl _, hoff, ?_, ?_⟩
      · exact not_lt.mp hmore
      · have hnil : b.extract off off = [] := by
          show (b.drop off).take (off - off) = []
          rw [Nat.sub_self, List.take_zero]
        rw [hnil]
        exact Octets.tiled_nil _

/-- What follows the fields: a MAC, or nothing after a last field that no MAC can be
mistaken for. -/
def Ends (fields : List (List UInt8)) (tail : List UInt8) : Prop :=
  tail.length = macSizeCMAC ∨ tail.length = macSizeSHA1 ∨
    (tail = [] ∧ ∀ f ∈ fields.getLast?, 28 ≤ f.length)

theorem Ends.tail {f : List UInt8} {fields : List (List UInt8)} {tail : List UInt8}
    (h : Ends (f :: fields) tail) (hfield : IsField f) :
    Ends fields tail ∧ 24 < f.length + fields.flatten.length + tail.length := by
  have h16 : 16 ≤ f.length := hfield.1
  rcases h with h | h | ⟨htail, h⟩
  · have h20 : tail.length = 20 := h
    exact ⟨.inl h, by omega⟩
  · have h24 : tail.length = 24 := h
    exact ⟨.inr (.inl h), by omega⟩
  · cases fields with
    | nil =>
      have h28 := h f rfl
      exact ⟨.inr (.inr ⟨htail, nofun⟩), by omega⟩
    | cons g fields =>
      rw [List.getLast?_cons_cons] at h
      refine ⟨.inr (.inr ⟨htail, h⟩), ?_⟩
      -- the last field alone is longer than a MAC
      obtain ⟨l, hl⟩ : ∃ l, (g :: fields).getLast? = some l :=
        ⟨_, List.getLast?_eq_some_getLast (List.cons_ne_nil g fields)⟩
      have h28 := h l hl
      have hle : l.length ≤ (g :: fields).flatten.length :=
        (List.sublist_flatten_of_mem (List.mem_of_getLast? hl)).length_le
      omega

/-- **A sequence of fields is skipped exactly**, whatever the fields contain. -/
theorem skipFields_fields (fields : List (List UInt8)) (tail pre : List UInt8) (fuel : ℕ)
    (hfields : ∀ f ∈ fields, IsField f) (hends : Ends fields tail)
    (hfuel : fields.flatten.length < fuel) :
    skipFields (pre ++ fields.flatten ++ tail) fuel pre.length =
      some (.ok (pre.length + fields.flatten.length)) := by
  induction fields generalizing pre fuel with
  | nil =>
    obtain ⟨fuel, rfl⟩ := Nat.exists_eq_add_one_of_ne_zero (Nat.ne_of_gt (Nat.zero_lt_of_lt hfuel))
    have hlen : tail.length ≤ 24 := by
      rcases hends with h | h | ⟨rfl, -⟩
      · exact h.le.trans (by decide)
      · exact h.le
      · exact Nat.zero_le _
    unfold skipFields
    rw [if_neg]
    · simp
    · simp [macSizeSHA1]
      omega
  | cons f fields ih =>
    obtain ⟨fuel, rfl⟩ := Nat.exists_eq_add_one_of_ne_zero (Nat.ne_of_gt (Nat.zero_lt_of_lt hfuel))
    have hf := hfields f List.mem_cons_self
    obtain ⟨hends', hmore⟩ := hends.tail hf
    obtain ⟨h16, h4, hvalue⟩ := hf
    have h16' : 16 ≤ f.length := h16
    have hb : pre ++ (f :: fields).flatten ++ tail = (pre ++ f) ++ fields.flatten ++ tail := by
      rw [List.flatten_cons]
      simp only [List.append_assoc]
    have hlen : (pre ++ (f :: fields).flatten ++ tail).length =
        pre.length + f.length + fields.flatten.length + tail.length := by
      rw [hb]
      simp only [List.length_append]
    have hslice : slice? (pre ++ (f :: fields).flatten ++ tail) (pre.length + 2) (pre.length + 4) =
        some (f.extract 2 4) := by
      rw [Octets.slice?_eq (by omega) (by omega), hb, List.append_assoc,
        Octets.extract_inner pre f _ (by omega)]
    unfold skipFields
    rw [if_pos (by rw [hlen, macSizeSHA1]; omega), if_neg (by rw [hlen]; omega), hslice]
    simp only [Option.bind_eq_bind, Option.bind_some]
    rw [hvalue, if_neg, hb, ← List.length_append, ih (pre ++ f) fuel]
    · rw [List.flatten_cons, List.length_append, List.length_append]
      congr 2
      omega
    · exact fun g hg => hfields g (List.mem_cons_of_mem _ hg)
    · exact hends'
    · rw [List.flatten_cons, List.length_append] at hfuel
      omega
    · rintro (hlt | hmod | hlong)
      · exact absurd h16 (not_le.mpr hlt)
      · exact hmod h4
      · rw [hlen] at hlong
        omega

/-- The trailer of a packet, read off its bytes. -/
inductive Trailer (b : List UInt8) (off : ℕ) : Option MAC → Prop where
  | absent (h : off = b.length) : Trailer b off none
  | nak (h : b.length = off + 4) (hzero : get 32 (b.extract off (off + 4)) = 0) :
      Trailer b off (some ⟨0, []⟩)
  | mac (h : b.length = off + 20 ∨ b.length = off + 24) :
      Trailer b off (some ⟨get 32 (b.extract off (off + 4)), b.drop (off + 4)⟩)

theorem trailer?_spec (b : List UInt8) (off : ℕ) (hoff : off ≤ b.length) :
    trailer? b off = some (.error .trailer) ∨
      ∃ mac, trailer? b off = some (.ok (mac, off)) ∧ Trailer b off mac := by
  unfold trailer?
  dsimp only
  by_cases h0 : b.length - off = 0
  · rw [if_pos h0, show b.length = off by omega]
    exact .inr ⟨none, rfl, .absent (by omega)⟩
  rw [if_neg h0]
  by_cases h4 : b.length - off = cryptoNAKSize
  · have hlen : b.length = off + 4 := by
      rw [cryptoNAKSize] at h4
      omega
    rw [if_pos h4, Octets.slice?_eq (by omega) (by omega)]
    simp only [Option.bind_eq_bind, Option.bind_some]
    by_cases hzero : get 32 (b.extract off (off + 4)) = 0
    · rw [if_neg (not_not.mpr hzero)]
      exact .inr ⟨_, rfl, .nak hlen hzero⟩
    · rw [if_pos hzero]
      exact .inl rfl
  rw [if_neg h4]
  by_cases hmac : b.length - off = macSizeCMAC ∨ b.length - off = macSizeSHA1
  · have hlen : b.length = off + 20 ∨ b.length = off + 24 := by
      rw [macSizeCMAC, macSizeSHA1] at hmac
      omega
    rw [if_pos hmac, Octets.slice?_eq (by omega) (by omega), Octets.slice?_eq (by omega) le_rfl,
      Octets.extract_eq_drop]
    exact .inr ⟨_, rfl, .mac hlen⟩
  · rw [if_neg hmac]
    exact .inl rfl

/-- A packet and what `Decode` makes of it. -/
structure Framed (b : List UInt8) (d : Decoded) : Prop where
  length : 48 ≤ b.length
  packet : d.packet = headerOf b
  version : Supported d.packet.version
  offset_ge : 48 ≤ d.macOffset
  offset_le : d.macOffset ≤ b.length
  tiled : Tiled IsField (b.extract 48 d.macOffset)
  trailer : Trailer b d.macOffset d.mac

/-- **`Decode` returns**, and what it accepts is framed. -/
theorem decode?_spec (b : List UInt8) :
    (∃ e, decode? b = some (.error e)) ∨ ∃ d, decode? b = some (.ok d) ∧ Framed b d := by
  unfold decode?
  by_cases hshort : b.length < 48
  · rw [decodeHeader?_short hshort]
    exact .inl ⟨_, rfl⟩
  have hlen : 48 ≤ b.length := by omega
  rw [decodeHeader?_eq hlen]
  by_cases hv : Supported (headerOf b).version
  · rw [if_pos hv]
    rcases skipFields_spec b b.length 48 hlen (by omega) with herr | ⟨k, hk, h48, hkb, -, htiled⟩
    · exact .inl ⟨.trailer, by simp [headerSize, herr]⟩
    · rcases trailer?_spec b k hkb with herr | ⟨mac, hmac, htrailer⟩
      · exact .inl ⟨.trailer, by simp [headerSize, hk, herr]⟩
      · exact .inr ⟨⟨headerOf b, mac, k⟩, by simp [headerSize, hk, hmac],
          ⟨hlen, rfl, hv, h48, hkb, htiled, htrailer⟩⟩
  · rw [if_neg hv]
    exact .inl ⟨_, rfl⟩

theorem decode?_isSome (b : List UInt8) : (decode? b).isSome = true := by
  rcases decode?_spec b with ⟨e, h⟩ | ⟨d, h, -⟩ <;> rw [h] <;> rfl

/-- `Decode`. -/
def decode (b : List UInt8) : Except DecodeError Decoded :=
  (decode? b).get (decode?_isSome b)

theorem decode?_eq (b : List UInt8) : decode? b = some (decode b) :=
  (Option.some_get _).symm

theorem framed_of_decode {d : Decoded} (h : decode b = .ok d) : Framed b d := by
  have hd : decode? b = some (.ok d) := by rw [decode?_eq, h]
  rcases decode?_spec b with ⟨e, he⟩ | ⟨d', hd', hframed⟩
  · rw [hd] at he
    cases he
  · rw [hd] at hd'
    cases hd'
    exact hframed

/-- The MAC that a trailer writes. -/
def macOf (tail : List UInt8) : Option MAC :=
  if tail = [] then none else some ⟨get 32 (tail.extract 0 4), tail.drop 4⟩

/-- A packet is decoded from its parts: the header, the extension fields and the trailer. -/
theorem decode_of_parts {p : Packet} {mac : Option MAC} {off macOffset : ℕ} (hlen : 48 ≤ b.length)
    (hheader : headerOf b = p) (hp : Supported p.version)
    (hskip : skipFields b b.length 48 = some (.ok off))
    (htrailer : trailer? b off = some (.ok (mac, macOffset))) :
    decode b = .ok ⟨p, mac, macOffset⟩ := by
  have hdecode : decode? b = some (.ok ⟨p, mac, macOffset⟩) := by
    unfold decode?
    rw [decodeHeader?_eq hlen, hheader, if_pos hp]
    simp only [Option.bind_eq_bind, Option.bind_some, headerSize]
    rw [hskip]
    simp only [Option.bind_some]
    rw [htrailer]
    rfl
  rw [decode?_eq] at hdecode
  exact Option.some.inj hdecode

/-- The trailer after a body is the MAC that it writes. -/
theorem trailer?_append (body : List UInt8) {tail : List UInt8}
    (htail : tail.length = macSizeCMAC ∨ tail.length = macSizeSHA1 ∨ tail = []) :
    trailer? (body ++ tail) body.length = some (.ok (macOf tail, body.length)) := by
  have hlen : (body ++ tail).length = body.length + tail.length := List.length_append
  have hmac : tail.length = macSizeCMAC ∨ tail.length = macSizeSHA1 →
      trailer? (body ++ tail) body.length = some (.ok (macOf tail, body.length)) := by
    intro hsize
    have hne : tail ≠ [] := by
      rintro rfl
      rcases hsize with h | h <;> cases h
    have hcases : tail.length = 20 ∨ tail.length = 24 := hsize
    have hrest : (body ++ tail).length - body.length = tail.length := by omega
    have hword : (body ++ tail).extract body.length (body.length + 4) = tail.extract 0 4 := by
      show ((body ++ tail).drop _).take (_ + 4 - _) = tail.take 4
      rw [List.drop_left, Nat.add_sub_cancel_left]
    have hdigest : (body ++ tail).drop (body.length + 4) = tail.drop 4 := by
      rw [← List.drop_drop, List.drop_left]
    unfold trailer? macOf
    dsimp only
    rw [hrest, if_neg (by omega), if_neg (by rw [cryptoNAKSize]; omega), if_pos hsize,
      Octets.slice?_eq (by omega) (by omega), Octets.slice?_eq (by omega) le_rfl,
      Octets.extract_eq_drop, hword, hdigest, if_neg hne]
    rfl
  rcases htail with h | h | rfl
  · exact hmac (.inl h)
  · exact hmac (.inr h)
  · unfold trailer? macOf
    dsimp only
    rw [if_pos (by rw [hlen]; simp), hlen, if_pos rfl]
    rfl

/-- **A framed packet is decoded exactly.** -/
theorem decode_framed (p : Packet) (hp : Supported p.version) (fields : List (List UInt8))
    (hfields : ∀ f ∈ fields, IsField f) (tail : List UInt8) (hends : Ends fields tail) :
    decode (p.marshal ++ fields.flatten ++ tail) =
      .ok ⟨p, macOf tail, 48 + fields.flatten.length⟩ := by
  have hmarshal := marshal_length p
  have hbody : (p.marshal ++ fields.flatten).length = 48 + fields.flatten.length := by
    rw [List.length_append, hmarshal]
  have hlen : (p.marshal ++ fields.flatten ++ tail).length =
      48 + fields.flatten.length + tail.length := by
    rw [List.length_append, hbody]
  have hheader : headerOf (p.marshal ++ fields.flatten ++ tail) = p := by
    rw [List.append_assoc]
    exact headerOf_marshal p hp _
  have hskip : skipFields (p.marshal ++ fields.flatten ++ tail)
      (p.marshal ++ fields.flatten ++ tail).length 48 =
      some (.ok (48 + fields.flatten.length)) := by
    have h := skipFields_fields fields tail p.marshal
      (p.marshal ++ fields.flatten ++ tail).length hfields hends (by omega)
    rwa [hmarshal] at h
  have htrailer := trailer?_append (p.marshal ++ fields.flatten)
    (hends.imp_right (Or.imp_right And.left))
  rw [hbody] at htrailer
  exact decode_of_parts (by omega) hheader hp hskip htrailer

/-- A header and a zero key id are a crypto-NAK. -/
theorem decode_nak (p : Packet) (hp : Supported p.version) :
    decode (p.marshal ++ put 4 (0 : BitVec 32)) = .ok ⟨p, some ⟨0, []⟩, 48⟩ := by
  have hmarshal := marshal_length p
  have hput : (put 4 (0 : BitVec 32)).length = 4 := Octets.length_put _ _
  have hlen : (p.marshal ++ put 4 (0 : BitVec 32)).length = 52 := by
    rw [List.length_append, hmarshal, hput]
  have hword : (p.marshal ++ put 4 (0 : BitVec 32)).extract 48 (48 + 4) =
      put 4 (0 : BitVec 32) := by
    show ((p.marshal ++ put 4 (0 : BitVec 32)).drop 48).take (48 + 4 - 48) = _
    rw [List.drop_left' hmarshal]
    exact List.take_of_length_le (by rw [hput])
  have hskip : skipFields (p.marshal ++ put 4 (0 : BitVec 32))
      (p.marshal ++ put 4 (0 : BitVec 32)).length 48 = some (.ok 48) := by
    rw [hlen]
    unfold skipFields
    rw [hlen]
    rfl
  have htrailer : trailer? (p.marshal ++ put 4 (0 : BitVec 32)) 48 =
      some (.ok (some ⟨0, []⟩, 48)) := by
    unfold trailer?
    dsimp only
    rw [hlen, if_neg (by decide), if_pos (by decide), Octets.slice?_eq (by omega) (by omega), hword]
    rfl
  exact decode_of_parts (by omega) (headerOf_marshal p hp _) hp hskip htrailer

end Carillon.Ntp
