/-
# Big-endian numbers and slices of byte strings

* `value` and `bytes` are the two directions of the big-endian encoding, inverse to
  each other on `w` bytes and on numbers below `256 ^ w`; `get` and `put` are the same
  for machine words.
* `value_xor` and `value_shiftLeft`: exclusive or and a shift by one place, byte by byte,
  are those of the number.
* `slice?` is a slice with a bounds check; a text laid out as the concatenation of its
  fields gives each field back at its offset.
* `Tiled W b` says that `b` is cut exactly into pieces with the property `W`.
-/
import Mathlib.Tactic

namespace Octets

/-! ## Big-endian numbers -/

/-- The number that the bytes write in base 256, the first digit leading. -/
def value (l : List UInt8) : ℕ :=
  l.foldl (fun n b => 256 * n + b.toNat) 0

/-- The last `w` digits of a number in base 256. -/
def bytes : ℕ → ℕ → List UInt8
  | 0, _ => []
  | w + 1, n => bytes w (n / 256) ++ [UInt8.ofNat n]

@[simp] theorem value_nil : value [] = 0 := rfl

@[simp] theorem value_concat (l : List UInt8) (b : UInt8) :
    value (l ++ [b]) = 256 * value l + b.toNat := by
  unfold value
  rw [List.foldl_concat]

@[simp] theorem length_bytes (w n : ℕ) : (bytes w n).length = w := by
  induction w generalizing n with
  | zero => rfl
  | succ w ih => rw [bytes, List.length_append, ih, List.length_singleton]

/-- A number of `n` bytes is below `256 ^ n`. -/
theorem value_lt (l : List UInt8) : value l < 256 ^ l.length := by
  induction l using List.reverseRecOn with
  | nil => decide
  | append_singleton l b ih =>
    have hb := b.toNat_lt
    rw [value_concat, List.length_append, List.length_singleton, pow_succ]
    omega

/-- Written, then read. -/
theorem value_bytes {w n : ℕ} (h : n < 256 ^ w) : value (bytes w n) = n := by
  induction w generalizing n with
  | zero =>
    obtain rfl : n = 0 := by simpa using h
    rfl
  | succ w ih =>
    have hdiv : n / 256 < 256 ^ w := by
      rw [pow_succ] at h
      omega
    rw [bytes, value_concat, ih hdiv, UInt8.toNat_ofNat']
    omega

/-- Read, then written. -/
theorem bytes_value (l : List UInt8) : bytes l.length (value l) = l := by
  induction l using List.reverseRecOn with
  | nil => rfl
  | append_singleton l b ih =>
    have hb := b.toNat_lt
    have hdiv : (256 * value l + b.toNat) / 256 = value l := by omega
    have hmod : UInt8.ofNat (256 * value l + b.toNat) = b := by
      rw [← UInt8.toNat_inj, UInt8.toNat_ofNat']
      omega
    rw [value_concat, List.length_append, List.length_singleton, bytes, hdiv, ih, hmod]

/-! ## Exclusive or and shifts -/

/-- The number that two texts write together. -/
theorem value_append (l r : List UInt8) : value (l ++ r) = value l * 256 ^ r.length + value r := by
  induction r using List.reverseRecOn with
  | nil => simp
  | append_singleton r b ih =>
    rw [← List.append_assoc, value_concat, value_concat, ih, List.length_append,
      List.length_singleton, pow_succ]
    ring

theorem value_cons (b : UInt8) (l : List UInt8) :
    value (b :: l) = b.toNat * 256 ^ l.length + value l := by
  have h := value_append [b] l
  rwa [show value [b] = b.toNat from by simp [value]] at h

/-- Numbers written in two parts, the second of `m` bits. -/
theorem xor_parts {m a b c d : ℕ} (hc : c < 2 ^ m) (hd : d < 2 ^ m) :
    (a * 2 ^ m + c) ^^^ (b * 2 ^ m + d) = (a ^^^ b) * 2 ^ m + (c ^^^ d) := by
  have hlow : ∀ {x y : ℕ}, y < 2 ^ m → (x * 2 ^ m + y) % 2 ^ m = y := by
    intro x y hy
    rw [Nat.mul_add_mod_self_right, Nat.mod_eq_of_lt hy]
  have hhigh : ∀ {x y : ℕ}, y < 2 ^ m → (x * 2 ^ m + y) / 2 ^ m = x := by
    intro x y hy
    rw [mul_comm, Nat.mul_add_div (Nat.two_pow_pos m), Nat.div_eq_of_lt hy, add_zero]
  rw [← Nat.div_add_mod' ((a * 2 ^ m + c) ^^^ (b * 2 ^ m + d)) (2 ^ m), Nat.xor_div_two_pow,
    Nat.xor_mod_two_pow, hhigh hc, hhigh hd, hlow hc, hlow hd]

/-- Exclusive or, byte by byte. -/
theorem value_xor {l r : List UInt8} (h : l.length = r.length) :
    value (List.zipWith (· ^^^ ·) l r) = value l ^^^ value r := by
  induction l generalizing r with
  | nil =>
    obtain rfl : r = [] := List.length_eq_zero_iff.mp h.symm
    rfl
  | cons a l ih =>
    cases r with
    | nil => simp at h
    | cons b r =>
      have hlen : l.length = r.length := Nat.succ_inj.mp h
      have hpow : ∀ k, 256 ^ k = 2 ^ (8 * k) := fun k => by rw [pow_mul]; rfl
      have hl := value_lt l
      have hr := value_lt r
      rw [hpow] at hl hr
      rw [← hlen] at hr
      rw [List.zipWith_cons_cons, value_cons, value_cons, value_cons, ih hlen,
        List.length_zipWith, ← hlen, min_self, hpow, xor_parts hl hr, UInt8.toNat_xor]

/-- Each byte shifted by one place, with the leading bit of the next one. -/
def shiftLeft : List UInt8 → List UInt8
  | [] => []
  | a :: l => (a <<< 1 ||| l.headD 0 >>> 7) :: shiftLeft l

@[simp] theorem length_shiftLeft (l : List UInt8) : (shiftLeft l).length = l.length := by
  induction l with
  | nil => rfl
  | cons a l ih => rw [shiftLeft, List.length_cons, ih, List.length_cons]

/-- One byte of the shifted text. -/
theorem getD_shiftLeft (l : List UInt8) (i : ℕ) :
    (shiftLeft l).getD i 0 = l.getD i 0 <<< 1 ||| l.getD (i + 1) 0 >>> 7 := by
  induction l generalizing i with
  | nil => simp [shiftLeft]
  | cons a l ih =>
    cases i with
    | zero => cases l <;> rfl
    | succ i => exact ih i

theorem toNat_leadingBit (b : UInt8) : (b >>> 7).toNat = b.toNat / 128 := by
  simp [UInt8.toNat_shiftRight, Nat.shiftRight_eq_div_pow]

/-- A byte shifted, with a bit put in: no bit is lost but the leading one. -/
theorem shift_byte (a b : UInt8) :
    (a <<< 1 ||| b >>> 7).toNat + 256 * (a >>> 7).toNat = 2 * a.toNat + (b >>> 7).toNat := by
  have ha := a.toNat_lt
  have hb := b.toNat_lt
  have hshift : (a <<< 1).toNat = (a.toNat % 128) <<< 1 := by
    rw [UInt8.toNat_shiftLeft]
    show a.toNat <<< 1 % 2 ^ 8 = _
    rw [Nat.shiftLeft_eq, Nat.shiftLeft_eq]
    omega
  rw [UInt8.toNat_or, hshift, toNat_leadingBit, toNat_leadingBit,
    ← Nat.shiftLeft_add_eq_or_of_lt (by omega), Nat.shiftLeft_eq]
  omega

/-- The bytes shifted are the number doubled, with the leading bit left out. -/
theorem value_shiftLeft (l : List UInt8) :
    value (shiftLeft l) + 256 ^ l.length * (l.headD 0 >>> 7).toNat = 2 * value l := by
  induction l with
  | nil => rfl
  | cons a l ih =>
    have hbyte := shift_byte a (l.headD 0)
    rw [shiftLeft, value_cons, value_cons, length_shiftLeft, List.headD_cons, List.length_cons,
      pow_succ]
    generalize 256 ^ l.length = p at *
    calc (a <<< 1 ||| l.headD 0 >>> 7).toNat * p + value (shiftLeft l) +
          p * 256 * (a >>> 7).toNat
        = ((a <<< 1 ||| l.headD 0 >>> 7).toNat + 256 * (a >>> 7).toNat) * p +
          value (shiftLeft l) := by ring
      _ = 2 * a.toNat * p + (value (shiftLeft l) + p * (l.headD 0 >>> 7).toNat) := by
        rw [hbyte]
        ring
      _ = 2 * (a.toNat * p + value l) := by
        rw [ih]
        ring

/-! ## Machine words -/

/-- The word that the bytes write. -/
def get (n : ℕ) (l : List UInt8) : BitVec n :=
  BitVec.ofNat n (value l)

/-- The word in `w` bytes. -/
def put {n : ℕ} (w : ℕ) (x : BitVec n) : List UInt8 :=
  bytes w x.toNat

@[simp] theorem length_put {n : ℕ} (w : ℕ) (x : BitVec n) : (put w x).length = w :=
  length_bytes w x.toNat

/-- A word written, then read. -/
theorem get_put {n w : ℕ} (hw : n = 8 * w) (x : BitVec n) : get n (put w x) = x := by
  subst hw
  have hlt : x.toNat < 256 ^ w := by
    have h := x.isLt
    rwa [pow_mul] at h
  unfold get put
  rw [value_bytes hlt, BitVec.ofNat_toNat, BitVec.setWidth_eq]

/-- The word of all its bytes loses nothing. -/
theorem toNat_get {n w : ℕ} (hw : n = 8 * w) {l : List UInt8} (hl : l.length = w) :
    (get n l).toNat = value l := by
  have h := value_lt l
  rw [hl, show (256 : ℕ) = 2 ^ 8 from rfl, ← pow_mul, ← hw] at h
  rw [get, BitVec.toNat_ofNat, Nat.mod_eq_of_lt h]

/-- A word read, then written. -/
theorem put_get {n w : ℕ} (hw : n = 8 * w) {l : List UInt8} (hl : l.length = w) :
    put w (get n l) = l := by
  unfold put
  rw [toNat_get hw hl, ← hl, bytes_value]

/-! ## Slices -/

variable {α : Type*}

/-- The slice `b[i:j]`, or `none` where it is out of range. -/
def slice? (b : List α) (i j : ℕ) : Option (List α) :=
  if i ≤ j ∧ j ≤ b.length then some (b.extract i j) else none

/-- A slice within the text. -/
theorem slice?_eq {b : List α} {i j : ℕ} (hij : i ≤ j) (hj : j ≤ b.length) :
    slice? b i j = some (b.extract i j) :=
  if_pos ⟨hij, hj⟩

theorem length_extract {b : List α} {i j : ℕ} (hj : j ≤ b.length) :
    (b.extract i j).length = j - i := by
  rw [List.length_take, List.length_drop]
  omega

/-- Adjacent slices join. -/
theorem extract_append_extract (b : List α) {i j k : ℕ} (hij : i ≤ j) (hjk : j ≤ k) :
    b.extract i j ++ b.extract j k = b.extract i k := by
  have hdrop : b.drop j = (b.drop i).drop (j - i) := by
    rw [List.drop_drop]
    congr 1
    omega
  have hlen : k - i = (j - i) + (k - j) := by omega
  show (b.drop i).take (j - i) ++ (b.drop j).take (k - j) = (b.drop i).take (k - i)
  rw [hdrop, hlen, List.take_add]

theorem extract_eq_drop (b : List α) (i : ℕ) : b.extract i b.length = b.drop i := by
  show (b.drop i).take (b.length - i) = b.drop i
  rw [← List.length_drop, List.take_length]

theorem extract_eq_take (b : List α) (j : ℕ) : b.extract 0 j = b.take j := rfl

/-- A single byte as a slice. -/
theorem extract_succ {b : List α} {i : ℕ} {x : α} (h : b[i]? = some x) :
    b.extract i (i + 1) = [x] := by
  obtain ⟨hi, rfl⟩ := List.getElem?_eq_some_iff.mp h
  show (b.drop i).take (i + 1 - i) = _
  rw [Nat.add_sub_cancel_left, List.drop_eq_getElem_cons hi, List.take_succ_cons, List.take_zero]

/-- A read within the text. -/
theorem getElem?_eq {b : List UInt8} {i : ℕ} (h : i < b.length) : b[i]? = some (b.getD i 0) := by
  rw [List.getD_eq_getElem?_getD, List.getElem?_eq_getElem h, Option.getD_some]

/-- A byte is a slice of length one. -/
theorem singleton_getD {b : List UInt8} {i : ℕ} (h : i < b.length) :
    [b.getD i 0] = b.extract i (i + 1) :=
  (extract_succ (getElem?_eq h)).symm

/-- A word read from a slice and written again. -/
theorem put_get_extract {b : List UInt8} {n w i j : ℕ} (hn : n = 8 * w) (hw : j - i = w)
    (hj : j ≤ b.length) : put w (get n (b.extract i j)) = b.extract i j :=
  put_get hn ((length_extract hj).trans hw)

/-- A number read from a slice and written again. -/
theorem bytes_value_extract {b : List UInt8} {w i j : ℕ} (hw : j - i = w) (hj : j ≤ b.length) :
    bytes w (value (b.extract i j)) = b.extract i j := by
  rw [← hw, ← length_extract hj, bytes_value]

/-- The slices of a text from `i` on, cut at the given places. -/
def slices (b : List α) : ℕ → List ℕ → List (List α)
  | _, [] => []
  | i, j :: js => b.extract i j :: slices b j js

/-- The slices between ascending places join. -/
theorem flatten_slices (b : List α) {i : ℕ} {js : List ℕ} (h : (i :: js).IsChain (· ≤ ·)) :
    (slices b i js).flatten = b.extract i (js.getLastD i) := by
  induction js generalizing i with
  | nil => simp [slices]
  | cons j js ih =>
    obtain ⟨hij, hjs⟩ := List.isChain_cons_cons.mp h
    have hlast : j ≤ js.getLastD j := by
      rcases List.mem_cons.mp (List.getLastD_mem_cons (l := js) (a := j)) with hlast | hmem
      · exact hlast.ge
      · exact (List.pairwise_cons.mp (List.isChain_iff_pairwise.mp hjs)).1 _ hmem
    rw [slices, List.flatten_cons, ih hjs, List.getLastD_cons]
    exact extract_append_extract b hij hlast

/-- The first `n` elements, as an array is filled by a copy. -/
def fill (n : ℕ) (l : List UInt8) : Vector UInt8 n :=
  Vector.ofFn fun i => l.getD i 0

/-- An array filled with its own bytes. -/
@[simp] theorem fill_toList {n : ℕ} (v : Vector UInt8 n) : fill n v.toList = v := by
  unfold fill
  ext i hi
  simp

/-- A copy of the full length. -/
theorem toList_fill {n : ℕ} {l : List UInt8} (h : l.length = n) : (fill n l).toList = l := by
  subst h
  unfold fill
  apply List.ext_getElem
  · simp
  · intro i _ hi
    simp

/-- The middle part, at its offset. -/
theorem extract_append (a m c : List α) :
    (a ++ m ++ c).extract a.length (a.length + m.length) = m := by
  show ((a ++ m ++ c).drop a.length).take (a.length + m.length - a.length) = m
  rw [List.append_assoc, List.drop_left, Nat.add_sub_cancel_left, List.take_left]

/-- A slice of a part, at the offset where the part begins. -/
theorem extract_inner (a m c : List α) {i j : ℕ} (hj : j ≤ m.length) :
    (a ++ m ++ c).extract (a.length + i) (a.length + j) = m.extract i j := by
  have hdrop : (a ++ (m ++ c)).drop (a.length + i) = (m ++ c).drop i := by
    rw [← List.drop_drop, List.drop_left]
  show ((a ++ m ++ c).drop (a.length + i)).take (a.length + j - (a.length + i)) =
    (m.drop i).take (j - i)
  rw [List.append_assoc, hdrop, Nat.add_sub_add_left]
  by_cases hi : i ≤ m.length
  · rw [List.drop_append_of_le_length hi, List.take_append_of_le_length]
    rw [List.length_drop]
    omega
  · rw [show j - i = 0 by omega, List.take_zero, List.take_zero]

/-- A slice of a slice. -/
theorem extract_extract (b : List α) {i j k l : ℕ} (hl : l ≤ j - i) :
    (b.extract i j).extract k l = b.extract (i + k) (i + l) := by
  show (((b.drop i).take (j - i)).drop k).take (l - k) =
    (b.drop (i + k)).take (i + l - (i + k))
  rw [List.drop_take, List.take_take, List.drop_drop]
  congr 1
  omega

/-- A field of a layout, at the offset where it begins. -/
theorem extract_flatten {fields pre post : List (List α)} {m : List α} {i j : ℕ}
    (h : fields = pre ++ m :: post) (hi : pre.flatten.length = i) (hj : i + m.length = j)
    (rest : List α) : (fields.flatten ++ rest).extract i j = m := by
  have hsplit : fields.flatten ++ rest = pre.flatten ++ m ++ (post.flatten ++ rest) := by
    rw [h, List.flatten_append, List.flatten_cons]
    simp only [List.append_assoc]
  rw [hsplit, ← hj, ← hi, extract_append]

/-! ## Tilings -/

/-- The text is cut exactly into pieces with the property. -/
def Tiled (W : List α → Prop) (b : List α) : Prop :=
  ∃ pieces : List (List α), (∀ p ∈ pieces, W p) ∧ pieces.flatten = b

theorem tiled_nil (W : List α → Prop) : Tiled W [] :=
  ⟨[], nofun, rfl⟩

/-- One more piece in front. -/
theorem Tiled.cons {W : List α → Prop} {p b : List α} (hp : W p) (hb : Tiled W b) :
    Tiled W (p ++ b) := by
  obtain ⟨pieces, hpieces, rfl⟩ := hb
  refine ⟨p :: pieces, ?_, rfl⟩
  intro q hq
  rcases List.mem_cons.mp hq with rfl | hq
  · exact hp
  · exact hpieces q hq

end Octets
