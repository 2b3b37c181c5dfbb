/-
# Rings: the latest elements of a history

A ring of a fixed capacity is a list that grows to the capacity and is then overwritten at a
position that goes round.  `Holds cap hist xs start` says what is in it: read from the
position of its oldest element, the ring is the list of the latest elements of the history.

* `Holds.append` and `Holds.set` are the two ways in which an element enters;
* `Holds.map` lets the elements change in place;
* `Holds.perm` is what a reader sees that does not care where the oldest element is.
-/
import Mathlib.Data.List.Rotate

namespace Ring

variable {α β : Type*} {cap start : ℕ} {hist xs : List α}

/-! ## The latest elements -/

/-- The latest elements of a history, oldest first. -/
def latest (cap : ℕ) (hist : List α) : List α := hist.drop (hist.length - cap)

theorem length_latest (cap : ℕ) (hist : List α) :
    (latest cap hist).length = min cap hist.length := by
  rw [latest, List.length_drop]
  omega

theorem latest_map (cap : ℕ) (f : α → β) (hist : List α) :
    latest cap (hist.map f) = (latest cap hist).map f := by
  rw [latest, latest, List.length_map, List.map_drop]

theorem latest_sublist (cap : ℕ) (hist : List α) : (latest cap hist).Sublist hist :=
  List.drop_sublist _ _

/-- A ring that is not full loses nothing. -/
theorem latest_append_of_lt (h : hist.length < cap) (x : α) :
    latest cap (hist ++ [x]) = latest cap hist ++ [x] := by
  have h0 : hist.length - cap = 0 := by omega
  have h1 : (hist ++ [x]).length - cap = 0 := by
    rw [List.length_append, List.length_singleton]
    omega
  rw [latest, latest, h0, h1, List.drop_zero, List.drop_zero]

/-- A new element pushes the oldest one out. -/
theorem latest_append_of_le (hcap : 0 < cap) (h : cap ≤ hist.length) (x : α) :
    latest cap (hist ++ [x]) = (latest cap hist).tail ++ [x] := by
  have hlen : (hist ++ [x]).length - cap = hist.length - cap + 1 := by
    rw [List.length_append, List.length_singleton]
    omega
  rw [latest, latest, hlen, List.tail_drop, List.drop_append_of_le_length (by omega)]

/-- A history that ends in as many elements as are kept: only those are kept. -/
theorem latest_append_of_length (hist : List α) {new : List α} (h : new.length = cap) :
    latest cap (hist ++ new) = new := by
  have hlen : (hist ++ new).length - cap = hist.length := by
    rw [List.length_append]
    omega
  rw [latest, hlen, List.drop_left]

/-- What is among the latest elements since some point is among the latest of all. -/
theorem mem_latest_of_suffix {since : List α} (h : since <:+ hist) {x : α}
    (hx : x ∈ latest cap since) : x ∈ latest cap hist := by
  obtain ⟨before, rfl⟩ := h
  unfold latest at hx ⊢
  rw [List.length_append]
  rcases le_total cap since.length with hcap | hcap
  · rw [Nat.add_sub_assoc hcap, ← List.drop_drop, List.drop_left]
    exact hx
  · rw [List.drop_append_of_le_length (by omega)]
    exact List.mem_append_right _ (List.mem_of_mem_drop hx)

/-! ## The ring -/

/-- The ring `xs`, whose oldest element is at `start`, holds the latest elements. -/
structure Holds (cap : ℕ) (hist xs : List α) (start : ℕ) : Prop where
  contents : xs.rotate start = latest cap hist
  filling : xs.length < cap → start = 0
  bound : start < cap

theorem holds_nil (hcap : 0 < cap) : Holds cap ([] : List α) [] 0 :=
  ⟨by simp [latest], fun _ => rfl, hcap⟩

theorem Holds.length (h : Holds cap hist xs start) : xs.length = min cap hist.length := by
  rw [← length_latest, ← h.contents, List.length_rotate]

/-- The ring holds the latest entries in some order. -/
theorem Holds.perm (h : Holds cap hist xs start) : xs.Perm (latest cap hist) :=
  h.contents ▸ (List.rotate_perm xs start).symm

/-- A ring of images. -/
theorem Holds.map (h : Holds cap hist xs start) (f : α → β) :
    Holds cap (hist.map f) (xs.map f) start := by
  refine ⟨?_, fun hlt => h.filling (by simpa using hlt), h.bound⟩
  rw [← List.map_rotate, h.contents, latest_map]

/-- As long as there is room, an element goes to the end. -/
theorem Holds.append (h : Holds cap hist xs start) (hroom : xs.length < cap) (x : α) :
    Holds cap (hist ++ [x]) (xs ++ [x]) 0 := by
  have hlt : hist.length < cap := by
    have hlen := h.length
    omega
  have hxs := h.contents
  rw [h.filling hroom, List.rotate_zero] at hxs
  refine ⟨?_, fun _ => rfl, by omega⟩
  rw [List.rotate_zero, latest_append_of_lt hlt, hxs]

/-- Overwriting an element and going on to the next one. -/
theorem rotate_set_succ {i : ℕ} (hi : i < xs.length) (x : α) :
    (xs.set i x).rotate (i + 1) = (xs.rotate i).tail ++ [x] := by
  have hlen : i + 1 ≤ (xs.set i x).length := by
    rw [List.length_set]
    omega
  rw [List.rotate_eq_drop_append_take hlen, List.rotate_eq_drop_append_take hi.le,
    List.drop_set_of_lt (by omega), List.take_set, List.drop_eq_getElem_cons hi, List.cons_append,
    List.tail_cons, List.append_assoc, List.take_succ_eq_append_getElem hi]
  congr 1
  rw [List.set_append_right _ _ (by rw [List.length_take]; omega), List.length_take,
    Nat.min_eq_left hi.le, Nat.sub_self, List.set_cons_zero]

/-- When the ring is full, an element takes the place of the oldest. -/
theorem Holds.set (h : Holds cap hist xs start) (hfull : cap ≤ xs.length) (x : α) :
    Holds cap (hist ++ [x]) (xs.set start x) ((start + 1) % cap) := by
  have hbound := h.bound
  have hlen := h.length
  have hcap : xs.length = cap := by omega
  have hmod : (xs.set start x).rotate ((start + 1) % cap) =
      (xs.set start x).rotate (start + 1) := by
    have hsame : (xs.set start x).length = cap := by rw [List.length_set, hcap]
    rw [← hsame, List.rotate_mod]
  refine ⟨?_, fun hlt => ?_, Nat.mod_lt _ (by omega)⟩
  · rw [hmod, rotate_set_succ (by omega), h.contents, latest_append_of_le (by omega) (by omega)]
  · rw [List.length_set] at hlt
    omega

end Ring
