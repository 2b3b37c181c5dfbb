/-
# AES-CMAC is that of RFC 4493

`CMAC` and `shiftLeftAndCondition` in `auth/cmac.go`, once more and with every slice and
index expression checked: `none` is a panic.  They never panic on a key of 16 bytes, and
compute the functions of `Ntp/Auth` (`cmac?_eq`).

The definition they are compared with is the algorithm of the RFC on 128-bit strings,
over a block function that nothing is known about.  A block of bytes is such a
string, the first byte leading (`bits`); the step from `L` to `K1` and `K2` is then the
multiplication by `X` in GF(2)[X] modulo X^128 + X^7 + X^2 + X + 1.
-/
import Carillon.Lib.Gf2
import Carillon.Ntp.Auth
import Mathlib.Algebra.Order.Floor.Div
import Mathlib.Data.List.GetD
import Mathlib.Data.Nat.Bitwise

namespace Carillon.Ntp

open Octets (get put fill slice? value shiftLeft)

/-! ## The functions with their bounds checks -/

/-- The zero value of `[16]byte`. -/
def zeroBlock : Block := Vector.replicate 16 0

/-- `b[i] = v`. -/
def store? (b : Block) (i : ℤ) (v : UInt8) : Option Block :=
  if h : 0 ≤ i ∧ i < 16 then some (b.set i.toNat v (by omega)) else none

/-- The loop of `shiftLeftAndCondition`, from index `i` down. -/
def shiftLoop (x : Block) : ℕ → Block → UInt8 → Option Block
  | 0, out, _ => some out
  | i + 1, out, carry => do
    let v ← x[i]?
    let out ← store? out i (v <<< 1 ||| carry)
    shiftLoop x i out (v >>> 7)

/-- `shiftLeftAndCondition`. -/
def shiftLeftAndCondition? (x : Block) : Option Block := do
  let out ← shiftLoop x 16 zeroBlock 0
  let top ← x[0]?
  if top &&& 0x80 ≠ 0 then
    let v ← out[15]?
    store? out 15 (v ^^^ 0x87)
  else some out

/-- `copy(dst[:], src)`. -/
def copyInto (dst : Block) (src : List UInt8) : Block :=
  Vector.ofFn fun i => src.getD i dst[i]

/-- One turn of the loop over the blocks before the last; `y` is the block that the turns
share. -/
def chainTurn (block : Block → Block) (msg : List UInt8) (s : Block × Block) (i : ℕ) :
    Option (Block × Block) := do
  let m ← slice? msg (i * 16) ((i + 1) * 16)
  let y := xorInto (copyInto s.1 m) s.2
  some (y, block y)

/-- `CMAC`. -/
def cmac? (aes : Cipher) (key msg : List UInt8) : Option Block :=
  if key.length ≠ 16 then none
  else do
    let block := aes (fill 16 key)
    let k1 ← shiftLeftAndCondition? (block zeroBlock)
    let k2 ← shiftLeftAndCondition? k1
    let blocks := (msg.length + 15) / 16
    let complete := blocks ≠ 0 ∧ msg.length % 16 = 0
    let n := if blocks = 0 then 1 else blocks
    let rest ← slice? msg ((n - 1) * 16) msg.length
    let copied := copyInto zeroBlock rest
    let last ← if complete then some (xorInto copied k1)
      else (store? copied (msg.length - (n - 1) * 16) 0x80).map (xorInto · k2)
    let (_, x) ← (List.range (n - 1)).foldlM (chainTurn block msg) (zeroBlock, zeroBlock)
    some (block (xorInto last x))

/-! ## No index is out of range -/

theorem store?_eq {b : Block} {i : ℕ} (hi : i < 16) (v : UInt8) :
    store? b i v = some (b.set i v hi) := by
  unfold store?
  rw [dif_pos (by omega)]
  rfl

theorem load_eq (b : Block) {i : ℕ} (hi : i < 16) : b[i]? = some (b.toList.getD i 0) := by
  simp [hi]

/-- After the turns for the indices below `k`, those hold the shifted bytes. -/
theorem shiftLoop_eq (x : Block) {k : ℕ} (hk : k ≤ 16) (out : Block) (carry : UInt8) :
    shiftLoop x k out carry = some (Vector.ofFn fun i : Fin 16 =>
      if i.val < k then
        x.toList.getD i 0 <<< 1 ||| (if i.val + 1 = k then carry else x.toList.getD (i + 1) 0 >>> 7)
      else out[i]) := by
  induction k generalizing out carry with
  | zero =>
      rw [shiftLoop]
      exact congrArg some (Vector.ext fun i hi => by simp)
  | succ k ih =>
      rw [shiftLoop, load_eq x (show k < 16 by omega)]
      simp only [Option.bind_eq_bind, Option.bind_some]
      rw [store?_eq (show k < 16 by omega), Option.bind_some, ih (by omega)]
      refine congrArg some (Vector.ext fun i hi => ?_)
      rw [Vector.getElem_ofFn, Vector.getElem_ofFn]
      dsimp only
      obtain hlt | rfl | hgt := Nat.lt_trichotomy i k
      · rw [if_pos hlt, if_pos (hlt.trans k.lt_succ_self), if_neg (show i + 1 ≠ k + 1 by omega)]
        by_cases hnext : i + 1 = k
        · rw [if_pos hnext, hnext]
        · rw [if_neg hnext]
      · rw [if_neg (lt_irrefl i), if_pos i.lt_succ_self, if_pos rfl]
        exact Vector.getElem_set_self _
      · rw [if_neg hgt.not_gt, if_neg (show ¬i < k + 1 by omega)]
        exact Vector.getElem_set_ne _ _ hgt.ne

/-- The bytes shifted by one place. -/
def shifted (x : Block) : Block := fill 16 (shiftLeft x.toList)

theorem shifted_getElem (x : Block) {i : ℕ} (hi : i < 16) :
    (shifted x)[i] = x.toList.getD i 0 <<< 1 ||| x.toList.getD (i + 1) 0 >>> 7 := by
  unfold shifted fill
  rw [Vector.getElem_ofFn, Octets.getD_shiftLeft]

/-- The whole loop; the last byte has nothing to take in. -/
theorem shiftLoop_whole (x : Block) : shiftLoop x 16 zeroBlock 0 = some (shifted x) := by
  rw [shiftLoop_eq x le_rfl]
  refine congrArg some (Vector.ext fun i hi => ?_)
  rw [Vector.getElem_ofFn, shifted_getElem x hi, if_pos hi]
  by_cases hlast : i + 1 = 16
  · have hend : x.toList.getD (i + 1) 0 = 0 := by simp [hlast]
    rw [if_pos hlast, hend]
    rfl
  · rw [if_neg hlast]

theorem shiftLeftAndCondition_eq (x : Block) :
    shiftLeftAndCondition x = if x.toList.getD 0 0 &&& 0x80 ≠ 0 then
        (shifted x).set 15 ((shifted x).toList.getD 15 0 ^^^ 0x87)
      else shifted x := by
  unfold shiftLeftAndCondition
  by_cases htop : x.toList.getD 0 0 &&& 0x80 ≠ 0
  · rw [if_pos htop]
    refine Vector.ext fun i hi => ?_
    rw [Vector.getElem_ofFn, Vector.getElem_set]
    by_cases hlast : i = 15
    · subst hlast
      have hbyte : (shifted x).toList.getD 15 0 = (shifted x)[15] := by simp
      rw [if_pos rfl, hbyte, shifted_getElem x hi]
      exact if_pos ⟨rfl, htop⟩
    · rw [if_neg (Ne.symm hlast), shifted_getElem x hi]
      exact if_neg fun h => hlast h.1
  · rw [if_neg htop]
    refine Vector.ext fun i hi => ?_
    rw [Vector.getElem_ofFn, shifted_getElem x hi]
    exact if_neg fun h => htop h.2

/-- No access to the block is out of range. -/
theorem shiftLeftAndCondition?_eq (x : Block) :
    shiftLeftAndCondition? x = some (shiftLeftAndCondition x) := by
  unfold shiftLeftAndCondition?
  rw [shiftLoop_whole, load_eq x (by decide), shiftLeftAndCondition_eq]
  simp only [Option.bind_eq_bind, Option.bind_some]
  by_cases htop : x.toList.getD 0 0 &&& 0x80 ≠ 0
  · rw [if_pos htop, if_pos htop, load_eq _ (by decide), Option.bind_some]
    exact store?_eq (i := 15) (by decide) _
  · rw [if_neg htop, if_neg htop]

variable {m : List UInt8}

theorem copyInto_full (y : Block) (hm : m.length = 16) :
    copyInto y m = fill 16 m := by
  refine Vector.ext fun i hi => ?_
  unfold copyInto fill
  rw [Vector.getElem_ofFn, Vector.getElem_ofFn]
  dsimp only
  rw [List.getD_eq_getElem m _ (by omega), List.getD_eq_getElem m _ (by omega)]

theorem copyInto_zero (m : List UInt8) : copyInto zeroBlock m = fill 16 m := by
  unfold copyInto fill zeroBlock
  simp

/-- The bit after the end of an incomplete block. -/
theorem store?_marker (hm : m.length < 16) :
    store? (fill 16 m) m.length 0x80 = some (fill 16 (m ++ [0x80])) := by
  rw [store?_eq hm]
  refine congrArg some (Vector.ext fun i hi => ?_)
  unfold fill
  rw [Vector.getElem_set, Vector.getElem_ofFn, Vector.getElem_ofFn]
  dsimp only
  obtain hlt | rfl | hgt := Nat.lt_trichotomy i m.length
  · rw [if_neg hlt.ne', List.getD_append _ _ _ _ hlt]
  · rw [if_pos rfl]
    simp
  · have hend : (m ++ [0x80]).length ≤ i := by
      rw [List.length_append, List.length_singleton]
      exact hgt
    rw [if_neg hgt.ne, List.getD_eq_default _ _ hend, List.getD_eq_default _ _ hgt.le]

/-- The loop over the blocks before the last. -/
theorem foldlM_chainTurn (block : Block → Block) (msg : List UInt8) {l : List ℕ}
    (hl : ∀ i ∈ l, (i + 1) * 16 ≤ msg.length) (y x : Block) :
    ∃ y', l.foldlM (chainTurn block msg) (y, x) =
      some (y', l.foldl (fun x i =>
        block (xorInto (fill 16 (msg.extract (i * 16) ((i + 1) * 16))) x)) x) := by
  induction l generalizing y x with
  | nil => exact ⟨y, rfl⟩
  | cons i l ih =>
      have hi := hl i List.mem_cons_self
      have hslice : slice? msg (i * 16) ((i + 1) * 16) =
          some (msg.extract (i * 16) ((i + 1) * 16)) :=
        Octets.slice?_eq (by omega) hi
      have hcopy : copyInto y (msg.extract (i * 16) ((i + 1) * 16)) =
          fill 16 (msg.extract (i * 16) ((i + 1) * 16)) := by
        apply copyInto_full
        rw [Octets.length_extract hi]
        omega
      rw [List.foldlM_cons, chainTurn, hslice, List.foldl_cons, ← hcopy]
      exact ih (fun j hj => hl j (List.mem_cons_of_mem i hj)) _ _

/-- Where the last block begins, and how long it is. -/
theorem lastBlock_bounds {len n : ℕ} (hn : n = if (len + 15) / 16 = 0 then 1 else (len + 15) / 16) :
    1 ≤ n ∧ (n - 1) * 16 ≤ len ∧
      ((len + 15) / 16 ≠ 0 ∧ len % 16 = 0 → len = (n - 1) * 16 + 16) ∧
      (¬((len + 15) / 16 ≠ 0 ∧ len % 16 = 0) → len < (n - 1) * 16 + 16) := by
  split_ifs at hn <;> omega

/-- **`CMAC` returns.**  No slice and no index is out of range, for any message. -/
theorem cmac?_eq (aes : Cipher) (key : Block) (msg : List UInt8) :
    cmac? aes key.toList msg = some (cmac aes key msg) := by
  unfold cmac? cmac
  rw [if_neg (by simp), Octets.fill_toList]
  simp only [shiftLeftAndCondition?_eq, Option.bind_eq_bind, Option.bind_some]
  generalize hn : (if (msg.length + 15) / 16 = 0 then 1 else (msg.length + 15) / 16) = n
  obtain ⟨hpos, hstart, -, hshort⟩ := lastBlock_bounds hn.symm
  have hturns : ∀ i ∈ List.range (n - 1), (i + 1) * 16 ≤ msg.length := by
    intro i hi
    have hi := List.mem_range.mp hi
    omega
  obtain ⟨y, hloop⟩ := foldlM_chainTurn (aes key) msg hturns zeroBlock zeroBlock
  rw [Octets.slice?_eq hstart le_rfl, Octets.extract_eq_drop, Option.bind_some, copyInto_zero,
    hloop]
  by_cases hcomplete : (msg.length + 15) / 16 ≠ 0 ∧ msg.length % 16 = 0
  · rw [if_pos hcomplete, if_pos hcomplete]
    rfl
  · have hlen := hshort hcomplete
    have hrest : (msg.drop ((n - 1) * 16)).length < 16 := by
      rw [List.length_drop]
      omega
    have hindex : (msg.length : ℤ) - (n - 1) * 16 = ((msg.drop ((n - 1) * 16)).length : ℕ) := by
      rw [List.length_drop]
      omega
    rw [if_neg hcomplete, if_neg hcomplete, hindex, store?_marker hrest]
    rfl

/-! ## Blocks as strings of 128 bits -/

/-- The 128 bits of a block, the first byte leading. -/
def bits (b : Block) : BitVec 128 := get 128 b.toList

/-- The block with these bits. -/
def blockOf (v : BitVec 128) : Block := fill 16 (put 16 v)

@[simp] theorem blockOf_bits (b : Block) : blockOf (bits b) = b := by
  unfold blockOf bits
  rw [Octets.put_get rfl b.length_toList, Octets.fill_toList]

theorem toNat_bits (b : Block) : (bits b).toNat = value b.toList :=
  Octets.toNat_get rfl b.length_toList

theorem bits_fill (hm : m.length = 16) : bits (fill 16 m) = get 128 m := by
  unfold bits
  rw [Octets.toList_fill hm]

theorem bits_zero : bits zeroBlock = 0 := by decide

/-- Exclusive or, on the words. -/
theorem bits_xorInto (a b : Block) : bits (xorInto a b) = bits a ^^^ bits b := by
  apply BitVec.eq_of_toNat_eq
  rw [BitVec.toNat_xor, toNat_bits, toNat_bits, toNat_bits, xorInto, Vector.toList_zipWith]
  exact Octets.value_xor (a.length_toList.trans b.length_toList.symm)

/-! ### The subkeys -/

/-- The leading bit, as the code tests it. -/
theorem leadingBit_ne_zero (b : UInt8) : b &&& 0x80 ≠ 0 ↔ b.toNat / 128 = 1 := by
  have hb := b.toNat_lt
  rw [ne_eq, ← UInt8.toNat_inj, UInt8.toNat_and, show (0x80 : UInt8).toNat = 2 ^ 7 from rfl,
    show (0 : UInt8).toNat = 0 from rfl, Nat.and_two_pow, Nat.testBit_eq_decide_div_mod_eq]
  by_cases hbit : b.toNat / 2 ^ 7 % 2 = 1
  · simp only [hbit, decide_true, Bool.toNat_true]
    omega
  · simp only [hbit, decide_false, Bool.toNat_false]
    omega

/-- The shift doubles the number and drops the leading bit. -/
theorem shifted_value (x : Block) :
    value (shifted x).toList + 2 ^ 128 * ((x.toList.getD 0 0).toNat / 128) =
      2 * value x.toList := by
  have h := Octets.value_shiftLeft x.toList
  have hlist : (shifted x).toList = shiftLeft x.toList := by
    apply Octets.toList_fill
    rw [Octets.length_shiftLeft, x.length_toList]
  have hhead : x.toList.headD 0 = x.toList.getD 0 0 := by
    rw [List.headD_eq_head?_getD, List.head?_eq_getElem?]
    rfl
  rw [x.length_toList, Octets.toNat_leadingBit, hhead] at h
  rw [hlist]
  exact h

/-- The shift, on the words. -/
theorem bits_shifted (x : Block) : bits (shifted x) = bits x <<< 1 := by
  apply BitVec.eq_of_toNat_eq
  have h := shifted_value x
  have hlt := Octets.value_lt (shifted x).toList
  rw [Vector.length_toList] at hlt
  rw [BitVec.toNat_shiftLeft, toNat_bits, toNat_bits, Nat.shiftLeft_eq]
  omega

theorem msb_bits (x : Block) : (bits x).msb = true ↔ x.toList.getD 0 0 &&& 0x80 ≠ 0 := by
  have h := shifted_value x
  have hlt := Octets.value_lt (shifted x).toList
  rw [Vector.length_toList] at hlt
  have hbyte := (x.toList.getD 0 0).toNat_lt
  rw [BitVec.msb_eq_decide, decide_eq_true_eq, toNat_bits, leadingBit_ne_zero]
  omega

/-- The byte-wise shift with carry is the shift of the string, with the constant of the RFC
added when a bit is dropped. -/
theorem bits_shiftLeftAndCondition (x : Block) :
    bits (shiftLeftAndCondition x) = Gf2.double 0x87 (bits x) := by
  rw [shiftLeftAndCondition_eq]
  unfold Gf2.double
  by_cases htop : x.toList.getD 0 0 &&& 0x80 ≠ 0
  · -- the last byte changed is the exclusive or with a block that is zero elsewhere
    have hxor : (shifted x).set 15 ((shifted x).toList.getD 15 0 ^^^ 0x87) =
        xorInto (shifted x) (zeroBlock.set 15 0x87) := by
      refine Vector.ext fun i hi => ?_
      unfold xorInto zeroBlock
      rw [Vector.getElem_zipWith, Vector.getElem_set, Vector.getElem_set]
      by_cases hlast : 15 = i
      · subst hlast
        rw [if_pos rfl, if_pos rfl]
        simp
      · rw [if_neg hlast, if_neg hlast, Vector.getElem_replicate, UInt8.xor_zero]
    rw [if_pos htop, if_pos ((msb_bits x).mpr htop), hxor, bits_xorInto, bits_shifted]
    congr 1
  · rw [if_neg htop, if_neg (fun h => htop ((msb_bits x).mp h)), bits_shifted]

/-! ## The algorithm of the RFC -/

namespace Rfc4493

/-- `const_Rb`. -/
def constRb : BitVec 128 := 0x87

/-- `Generate_Subkey`: `K1` and `K2` from the block function under the key. -/
def generateSubkey (aes : BitVec 128 → BitVec 128) : BitVec 128 × BitVec 128 :=
  let l := aes 0
  let k1 := if l.msb = false then l <<< 1 else (l <<< 1) ^^^ constRb
  let k2 := if k1.msb = false then k1 <<< 1 else (k1 <<< 1) ^^^ constRb
  (k1, k2)

/-- `padding(x)`: the octets, a single one bit and zeros up to 128 bits. -/
def padding (x : List UInt8) : List UInt8 := x ++ 0x80 :: List.replicate (15 - x.length) 0

/-- `M_i`, the blocks counted from one. -/
def part (msg : List UInt8) (i : ℕ) : List UInt8 := (msg.drop (16 * (i - 1))).take 16

/-- `AES-CMAC` of a message of `len` octets. -/
def aesCMAC (aes : BitVec 128 → BitVec 128) (msg : List UInt8) : BitVec 128 :=
  let (k1, k2) := generateSubkey aes
  let len := msg.length
  let blocks := len ⌈/⌉ 16
  let flag := blocks ≠ 0 ∧ len % 16 = 0
  let n := if blocks = 0 then 1 else blocks
  let mLast := if flag then get 128 (part msg n) ^^^ k1 else get 128 (padding (part msg n)) ^^^ k2
  let x := (List.range' 1 (n - 1)).foldl (fun x i => aes (x ^^^ get 128 (part msg i))) 0
  aes (mLast ^^^ x)

end Rfc4493

/-- The block function under a key, on strings of bits. -/
def onBits (aes : Cipher) (key : Block) (v : BitVec 128) : BitVec 128 :=
  bits (aes key (blockOf v))

section Conformance

variable (aes : Cipher) (key : Block)

theorem onBits_bits (b : Block) : onBits aes key (bits b) = bits (aes key b) := by
  rw [onBits, blockOf_bits]

/-- One step of the derivation, with the cases as the RFC has them. -/
theorem bits_subkey (x : Block) :
    bits (shiftLeftAndCondition x) =
      if (bits x).msb = false then bits x <<< 1 else (bits x <<< 1) ^^^ Rfc4493.constRb := by
  rw [bits_shiftLeftAndCondition, Gf2.double, Rfc4493.constRb]
  cases (bits x).msb <;> rfl

/-- The subkeys of the document are those of the code. -/
theorem generateSubkey_eq :
    Rfc4493.generateSubkey (onBits aes key) =
      (bits (shiftLeftAndCondition (aes key zeroBlock)),
        bits (shiftLeftAndCondition (shiftLeftAndCondition (aes key zeroBlock)))) := by
  have hzero : onBits aes key 0 = bits (aes key zeroBlock) := by
    rw [← bits_zero, onBits_bits]
  rw [bits_subkey (shiftLeftAndCondition (aes key zeroBlock)), bits_subkey (aes key zeroBlock),
    ← hzero]
  rfl

/-- The chain over the blocks before the last. -/
theorem bits_chain (msg : List UInt8) {k : ℕ} (hk : k * 16 ≤ msg.length) :
    bits ((List.range k).foldl (fun x i =>
        aes key (xorInto (fill 16 (msg.extract (i * 16) ((i + 1) * 16))) x)) zeroBlock) =
      (List.range' 1 k).foldl
        (fun x i => onBits aes key (x ^^^ get 128 (Rfc4493.part msg i))) 0 := by
  rw [List.range'_eq_map_range, List.foldl_map]
  refine List.foldl_rel (r := fun b v => bits b = v) bits_zero fun i hi b v hv => ?_
  have hi := List.mem_range.mp hi
  have hpart : msg.extract (i * 16) ((i + 1) * 16) = Rfc4493.part msg (1 + i) := by
    show (msg.drop (i * 16)).take ((i + 1) * 16 - i * 16) = (msg.drop (16 * (1 + i - 1))).take 16
    congr 1
    · omega
    · congr 1
      omega
  have hlen : (msg.extract (i * 16) ((i + 1) * 16)).length = 16 := by
    rw [Octets.length_extract (by omega)]
    omega
  rw [← onBits_bits, bits_xorInto, bits_fill hlen, hpart, hv, BitVec.xor_comm]

/-- An incomplete block is padded with its marker and zeros. -/
theorem bits_padding (hm : m.length < 16) :
    bits (fill 16 (m ++ [0x80])) = get 128 (Rfc4493.padding m) := by
  have hlen : (Rfc4493.padding m).length = 16 := by
    simp [Rfc4493.padding]
    omega
  have hsplit : Rfc4493.padding m = (m ++ [0x80]) ++ List.replicate (15 - m.length) 0 := by
    rw [Rfc4493.padding, List.append_cons]
  have hzeros : ∀ i, (Rfc4493.padding m).getD i 0 = (m ++ [0x80]).getD i 0 := by
    intro i
    rw [hsplit]
    by_cases hi : i < (m ++ [0x80]).length
    · rw [List.getD_append _ _ _ _ hi]
    · have hend := not_lt.mp hi
      rw [List.getD_append_right _ _ _ _ hend, List.getD_eq_default _ _ hend]
      exact List.getElem?_getD_replicate_default_eq _ _ _
  have hfill : fill 16 (m ++ [0x80]) = fill 16 (Rfc4493.padding m) := by
    unfold fill
    simp only [hzeros]
  rw [hfill, bits_fill hlen]

/-- **`CMAC` is AES-CMAC.** -/
theorem bits_cmac (msg : List UInt8) :
    bits (cmac aes key msg) = Rfc4493.aesCMAC (onBits aes key) msg := by
  have hceil : msg.length ⌈/⌉ 16 = (msg.length + 15) / 16 :=
    Nat.ceilDiv_eq_add_pred_div msg.length 16
  unfold cmac Rfc4493.aesCMAC
  rw [generateSubkey_eq]
  dsimp only
  rw [hceil]
  generalize hn : (if (msg.length + 15) / 16 = 0 then 1 else (msg.length + 15) / 16) = n
  obtain ⟨hpos, hstart, hfull, hshort⟩ := lastBlock_bounds hn.symm
  have hpart : ∀ h : msg.length ≤ (n - 1) * 16 + 16,
      Rfc4493.part msg n = msg.drop ((n - 1) * 16) := by
    intro h
    rw [Rfc4493.part, mul_comm]
    apply List.take_of_length_le
    rw [List.length_drop]
    omega
  rw [← bits_chain aes key msg hstart]
  by_cases hcomplete : (msg.length + 15) / 16 ≠ 0 ∧ msg.length % 16 = 0
  · have hlen := hfull hcomplete
    have hrest : (msg.drop ((n - 1) * 16)).length = 16 := by
      rw [List.length_drop]
      omega
    rw [if_pos hcomplete, if_pos hcomplete, hpart hlen.le, ← bits_fill hrest, ← bits_xorInto,
      ← bits_xorInto, onBits_bits]
    rfl
  · have hlen := hshort hcomplete
    have hrest : (msg.drop ((n - 1) * 16)).length < 16 := by
      rw [List.length_drop]
      omega
    rw [if_neg hcomplete, if_neg hcomplete, hpart hlen.le, ← bits_padding hrest, ← bits_xorInto,
      ← bits_xorInto, onBits_bits]
    rfl

end Conformance

/-! ## Doubling in the field -/

section Field

open Polynomial

/-- The modulus of the field. -/
theorem modulus_constRb :
    Gf2.modulus Rfc4493.constRb = X ^ 128 + X ^ 7 + X ^ 2 + X + 1 := by
  have hsum : Rfc4493.constRb = BitVec.twoPow 128 7 ^^^ BitVec.twoPow 128 2 ^^^
      BitVec.twoPow 128 1 ^^^ BitVec.twoPow 128 0 := by decide
  rw [Gf2.modulus, hsum, Gf2.poly_xor, Gf2.poly_xor, Gf2.poly_xor, Gf2.poly_twoPow (by decide),
    Gf2.poly_twoPow (by decide), Gf2.poly_twoPow (by decide), Gf2.poly_twoPow (by decide)]
  ring

/-- **AES-CMAC conforms to the RFC.**  For every key and every message `CMAC` returns, with
no index out of range, the tag that the RFC defines over the same block function; and
the derivation of a subkey returns the product with `X` in GF(2)[X] modulo
X^128 + X^7 + X^2 + X + 1. -/
theorem cmac_conforms :
    (∀ (aes : Cipher) (key : Block) (msg : List UInt8), ∃ tag,
      cmac? aes key.toList msg = some tag ∧
      bits tag = Rfc4493.aesCMAC (onBits aes key) msg) ∧
    ∀ x : Block, ∃ k, shiftLeftAndCondition? x = some k ∧
      Gf2.poly (bits k) = (X * Gf2.poly (bits x)) %ₘ (X ^ 128 + X ^ 7 + X ^ 2 + X + 1) := by
  constructor
  · intro aes key msg
    exact ⟨cmac aes key msg, cmac?_eq aes key msg, bits_cmac aes key msg⟩
  · intro x
    refine ⟨shiftLeftAndCondition x, shiftLeftAndCondition?_eq x, ?_⟩
    rw [bits_shiftLeftAndCondition, Gf2.poly_double, ← modulus_constRb]
    rfl

end Field

end Carillon.Ntp
