/-
# Message authentication: AES-CMAC trailers

`CMAC` is modelled over the block cipher as a parameter: nothing that is proved about
the packets depends on what the cipher computes.  A key carries its 16 bytes in its
type, as `ParseKeys` guarantees, so that the length panic of the source cannot happen.
-/
import Carillon.Ntp.Packet

namespace Carillon.Ntp

open Octets (get put fill)

/-- A block of the cipher. -/
abbrev Block := Vector UInt8 16

/-- The block cipher: a key and a block. -/
abbrev Cipher := Block → Block → Block

/-- `shiftLeftAndCondition`, the derivation of a subkey. -/
def shiftLeftAndCondition (x : Block) : Block :=
  Vector.ofFn fun i =>
    let carry := x.toList.getD (i + 1) 0 >>> 7
    let y := x.toList.getD i 0 <<< 1 ||| carry
    if i.val = 15 ∧ x.toList.getD 0 0 &&& 0x80 ≠ 0 then y ^^^ 0x87 else y

/-- `xorInto`. -/
def xorInto (dst src : Block) : Block :=
  Vector.zipWith (· ^^^ ·) dst src

/-- `CMAC`. -/
def cmac (aes : Cipher) (key : Block) (msg : List UInt8) : Block :=
  let k1 := shiftLeftAndCondition (aes key (Vector.replicate 16 0))
  let k2 := shiftLeftAndCondition k1
  let blocks := (msg.length + 15) / 16
  let complete := blocks ≠ 0 ∧ msg.length % 16 = 0
  -- an empty message counts as one incomplete block
  let n := if blocks = 0 then 1 else blocks
  let rest := msg.drop ((n - 1) * 16)
  let last := if complete then xorInto (fill 16 rest) k1 else xorInto (fill 16 (rest ++ [0x80])) k2
  let x := (List.range (n - 1)).foldl
    (fun x i => aes key (xorInto (fill 16 (msg.extract (i * 16) ((i + 1) * 16))) x))
    (Vector.replicate 16 0)
  aes key (xorInto last x)

/-- `auth.Key`. -/
structure Key where
  id : BitVec 32
  secret : Block
  deriving DecidableEq

section Keys

variable (aes : Cipher)

/-- The trailer that `Append` adds: the key id and the digest. -/
def Key.trailer (k : Key) (pkt : List UInt8) : List UInt8 :=
  put 4 k.id ++ (cmac aes k.secret pkt).toList

/-- `Key.Append`. -/
def Key.append (k : Key) (pkt : List UInt8) : List UInt8 :=
  pkt ++ k.trailer aes pkt

/-- `Key.Verify`. -/
def Key.verify (k : Key) (pkt : List UInt8) (mac : MAC) : Bool :=
  !mac.isCryptoNAK && decide (mac.keyID = k.id) && decide (mac.digest.length = 16) &&
    decide ((cmac aes k.secret pkt).toList = mac.digest)

variable {aes}

theorem trailer_length (k : Key) (pkt : List UInt8) : (k.trailer aes pkt).length = 20 := by
  simp [Key.trailer]

theorem append_length (k : Key) (pkt : List UInt8) :
    (k.append aes pkt).length = pkt.length + 20 := by
  rw [Key.append, List.length_append, trailer_length]

/-- The MAC that the trailer of a key writes. -/
theorem macOf_trailer (k : Key) (pkt : List UInt8) :
    macOf (k.trailer aes pkt) = some ⟨k.id, (cmac aes k.secret pkt).toList⟩ := by
  have hne : k.trailer aes pkt ≠ [] := by
    intro h
    have hlen : (k.trailer aes pkt).length = 20 := trailer_length k pkt
    rw [h] at hlen
    cases hlen
  have hword : (k.trailer aes pkt).extract 0 4 = put 4 k.id := by
    rw [Octets.extract_eq_take, Key.trailer, List.take_append_of_le_length (by simp)]
    exact List.take_of_length_le (by simp)
  have hdigest : (k.trailer aes pkt).drop 4 = (cmac aes k.secret pkt).toList := by
    rw [Key.trailer, List.drop_append_of_le_length (by simp), List.drop_of_length_le (by simp),
      List.nil_append]
  unfold macOf
  rw [if_neg hne, hword, hdigest, Octets.get_put (n := 32) rfl]

/-- **What a key signs, it verifies.** -/
theorem verify_trailer (k : Key) (pkt : List UInt8) :
    k.verify aes pkt ⟨k.id, (cmac aes k.secret pkt).toList⟩ = true := by
  simp [Key.verify, MAC.isCryptoNAK]

/-- A verified trailer is the one that the key would have written. -/
theorem verify_eq {k : Key} {pkt : List UInt8} {mac : MAC} (h : k.verify aes pkt mac = true) :
    mac = ⟨k.id, (cmac aes k.secret pkt).toList⟩ := by
  simp only [Key.verify, Bool.and_eq_true, decide_eq_true_eq] at h
  obtain ⟨⟨⟨-, hid⟩, -⟩, hdigest⟩ := h
  cases mac
  rw [MAC.mk.injEq]
  exact ⟨hid, hdigest.symm⟩

end Keys

/-- A signed packet is decoded, with its trailer where the signature begins. -/
theorem decode_append {aes : Cipher} (k : Key) (p : Packet) (hp : Supported p.version)
    (fields : List (List UInt8)) (hfields : ∀ f ∈ fields, IsField f) :
    decode (k.append aes (p.marshal ++ fields.flatten)) =
      .ok ⟨p, some ⟨k.id, (cmac aes k.secret (p.marshal ++ fields.flatten)).toList⟩,
        48 + fields.flatten.length⟩ := by
  have h := decode_framed p hp fields hfields (k.trailer aes (p.marshal ++ fields.flatten))
    (.inl (trailer_length k _))
  rwa [macOf_trailer] at h

end Carillon.Ntp
