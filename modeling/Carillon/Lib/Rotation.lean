/-
# Going round a list whose position is looked up anew

A walk goes round a list.  Now and then it forgets its position and looks it up again, as the
first place where the present element stands.  Then it may go back, and what it visits depends
on the places where an element is repeated: `covers_iff` says exactly when every element is
visited within one round, whenever the walk looks up its position.
-/
import Mathlib.Data.List.Nodup
import Mathlib.Data.Nat.Find
import Mathlib.Order.Basic

namespace Rotation

variable {α : Type*} [DecidableEq α] {xs : List α} {c : α} {i f p s : ℕ}

/-- The first place of the element at a position. -/
def first (xs : List α) (i : ℕ) : ℕ := (xs[i]?).elim i fun x => xs.idxOf x

/-- The next position, after the position itself or after the first place of its element. -/
def next (xs : List α) (i : ℕ) (anew : Bool) : ℕ :=
  ((if anew then first xs i else i) + 1) % xs.length

/-- From a position the walk is at the element within some steps, however it goes. -/
def Covers (xs : List α) (c : α) : ℕ → ℕ → Prop
  | 0, i => xs[i]? = some c
  | d + 1, i => xs[i]? = some c ∨ ∀ anew, Covers xs c d (next xs i anew)

/-- Between the first place of an element and any other place of it stand all elements. -/
def Spread (xs : List α) : Prop :=
  ∀ i < xs.length, first xs i < i → ∀ c ∈ xs, ∃ k < i + 1, first xs i < k ∧ xs[k]? = some c

instance (xs : List α) : Decidable (Spread xs) :=
  inferInstanceAs (Decidable (∀ i < xs.length, _))

/-! ## First places -/

theorem idxOf_le_of_getElem? {x : α} {k : ℕ} (h : xs[k]? = some x) : xs.idxOf x ≤ k := by
  by_contra hlt
  obtain ⟨hk, hx⟩ := List.getElem?_eq_some_iff.mp h
  have hne : (xs[k] == x) = false := List.not_of_lt_findIdx (not_le.mp hlt)
  rw [hx, BEq.rfl] at hne
  cases hne

theorem getElem?_idxOf {x : α} (h : x ∈ xs) : xs[xs.idxOf x]? = some x := by
  have hlt := List.idxOf_lt_length_of_mem h
  rw [List.getElem?_eq_getElem hlt, List.getElem_idxOf hlt]

/-- The first place of the entry at `i`. -/
theorem first_eq {x : α} (h : xs[i]? = some x) : first xs i = xs.idxOf x := by
  rw [first, h, Option.elim_some]

theorem first_le (xs : List α) (i : ℕ) : first xs i ≤ i := by
  rw [first]
  cases h : xs[i]? with
  | none => exact le_refl i
  | some x => exact idxOf_le_of_getElem? h

/-- The same element stands at the first place. -/
theorem getElem?_first (h : i < xs.length) : xs[first xs i]? = xs[i]? := by
  have hx := List.getElem?_eq_getElem h
  rw [first_eq hx, hx]
  exact getElem?_idxOf (List.getElem_mem h)

/-- A first place is its own. -/
theorem first_first (h : i < xs.length) : first xs (first xs i) = first xs i := by
  have hx := List.getElem?_eq_getElem h
  rw [first_eq ((getElem?_first h).trans hx), first_eq hx]

/-- In a spread list nothing is repeated before a first place. -/
theorem Spread.first_of_le (h : Spread xs) (hf : f < xs.length) (hfirst : first xs f = f)
    (hi : i ≤ f) : first xs i = i := by
  by_contra hne
  have hlt : first xs i < i := lt_of_le_of_ne (first_le xs i) hne
  have hxf := List.getElem?_eq_getElem hf
  obtain ⟨k, hk, -, hxk⟩ := h i (by omega) hlt _ (List.getElem_mem hf)
  have hle := idxOf_le_of_getElem? hxk
  rw [← first_eq hxf, hfirst] at hle
  have hif : i = f := by omega
  exact hne (hif ▸ hfirst)

/-- Where nothing repeats, the condition is void. -/
theorem Spread.of_nodup (h : xs.Nodup) : Spread xs := by
  intro i hi hlt
  have hsame := getElem?_first hi
  have heq := (List.getElem?_inj (hlt.trans hi) h).mp hsame
  omega

/-! ## The walk -/

/-- More steps cover more. -/
theorem Covers.mono {d e : ℕ} (h : Covers xs c d i) (hle : d ≤ e) : Covers xs c e i := by
  induction d generalizing e i with
  | zero =>
    cases e with
    | zero => exact h
    | succ e => exact .inl h
  | succ d ih =>
    obtain ⟨e, rfl⟩ : ∃ k, e = k + 1 := ⟨e - 1, by omega⟩
    rcases h with h | h
    · exact .inl h
    · exact .inr fun anew => ih (h anew) (by omega)

/-- From a first place to the next one. -/
theorem next_of_first (hfirst : first xs i = i) (hlt : i + 1 < xs.length) (anew : Bool) :
    next xs i anew = i + 1 := by
  cases anew <;> simp only [next, hfirst, Bool.false_eq_true, if_false, if_true] <;>
    exact Nat.mod_eq_of_lt hlt

/-- Before the first place of the element the walk goes straight on to it. -/
theorem Spread.covers_before (h : Spread xs) (hc : c ∈ xs) (hi : i ≤ xs.idxOf c) :
    Covers xs c (xs.idxOf c - i) i := by
  have hq := List.idxOf_lt_length_of_mem hc
  have hqc := getElem?_idxOf hc
  have hqfirst : first xs (xs.idxOf c) = xs.idxOf c := first_eq hqc
  generalize hd : xs.idxOf c - i = d
  induction d generalizing i with
  | zero =>
    obtain rfl : i = xs.idxOf c := by omega
    exact hqc
  | succ d ih =>
    refine .inr fun anew => ?_
    rw [next_of_first (h.first_of_le hq hqfirst hi) (by omega)]
    exact ih (by omega) (by omega)

/-- From behind a first place that is behind the element's own, the walk goes on to the next
place of the element, unless it goes back before the first one. -/
theorem Spread.covers_between (h : Spread xs) (hc : c ∈ xs) (hf : f < xs.length)
    (hfirst : first xs f = f) (hp : xs[p]? = some c)
    (hnone : ∀ k, f < k → k < p → xs[k]? ≠ some c) (hfi : f < i) (hip : i ≤ p) :
    Covers xs c (p - i + xs.idxOf c) i := by
  have hplt : p < xs.length := (List.getElem?_eq_some_iff.mp hp).1
  generalize hd : p - i = d
  induction d generalizing i with
  | zero =>
    obtain rfl : i = p := by omega
    exact Covers.mono (d := 0) hp (Nat.zero_le _)
  | succ d ih =>
    rw [Nat.succ_add]
    refine .inr fun anew => ?_
    have hon : Covers xs c (d + xs.idxOf c) (i + 1) := ih (by omega) (by omega) (by omega)
    cases anew with
    | false =>
      have hnext : next xs i false = i + 1 := by
        simp only [next, Bool.false_eq_true, if_false]
        exact Nat.mod_eq_of_lt (by omega)
      rw [hnext]
      exact hon
    | true =>
      have hnext : next xs i true = first xs i + 1 := by
        simp only [next, if_true]
        have hle := first_le xs i
        exact Nat.mod_eq_of_lt (by omega)
      rw [hnext]
      rcases (first_le xs i).lt_or_eq with hlt | heq
      · -- it goes back behind an element that stood before the first place of `c`
        obtain ⟨k, hk, hgk, hxk⟩ := h i (by omega) hlt c hc
        have hkf : k ≤ f := by
          by_contra hkf
          exact hnone k (by omega) (by omega) hxk
        have hkq : k = xs.idxOf c := (h.first_of_le hf hfirst hkf).symm.trans (first_eq hxk)
        exact (h.covers_before hc (by omega)).mono (by omega)
      · rw [heq]
        exact hon

/-- From behind the first place of the element the walk is at it within the rest of a round. -/
theorem Spread.covers_behind (h : Spread xs) (hc : c ∈ xs) (hs : xs.idxOf c < s) (hsi : s ≤ i)
    (hi : i < xs.length) (hnone : ∀ k, s ≤ k → k < i → xs[k]? ≠ some c) :
    Covers xs c (xs.length - (i - s)) i := by
  have hq := List.idxOf_lt_length_of_mem hc
  generalize hd : xs.length - i = d
  induction d generalizing i with
  | zero => omega
  | succ d ih =>
    obtain ⟨e, he⟩ : ∃ e, xs.length - (i - s) = e + 1 := ⟨xs.length - (i - s) - 1, by omega⟩
    rw [he]
    by_cases hxi : xs[i]? = some c
    · exact .inl hxi
    refine .inr fun anew => ?_
    -- one step on, or round to the beginning
    have hon : Covers xs c e ((i + 1) % xs.length) := by
      rcases Nat.lt_or_ge (i + 1) xs.length with hlt | hge
      · rw [Nat.mod_eq_of_lt hlt]
        have hmore := ih (i := i + 1) (by omega) hlt (fun k hsk hk => by
          rcases Nat.lt_succ_iff_lt_or_eq.mp hk with hk | rfl
          · exact hnone k hsk hk
          · exact hxi) (by omega)
        exact hmore.mono (by omega)
      · have hround : i + 1 = xs.length := by omega
        rw [hround, Nat.mod_self]
        exact (h.covers_before hc (Nat.zero_le _)).mono (by omega)
    cases anew with
    | false => exact hon
    | true =>
      rcases (first_le xs i).lt_or_eq with hlt | heq
      · have hnext : next xs i true = first xs i + 1 := by
          simp only [next, if_true]
          exact Nat.mod_eq_of_lt (by omega)
        rw [hnext]
        have hgq : first xs i ≠ xs.idxOf c := by
          intro heq
          exact hxi ((getElem?_first hi).symm.trans (heq ▸ getElem?_idxOf hc))
        rcases lt_or_gt_of_ne hgq with hless | hmore
        · exact (h.covers_before hc (by omega)).mono (by omega)
        · -- the next place of the element is before the start, since the walk has not met it
          obtain ⟨k, hk, hgk, hxk⟩ := h i hi hlt c hc
          have hex : ∃ p, first xs i < p ∧ xs[p]? = some c := ⟨k, hgk, hxk⟩
          obtain ⟨hgp, hxp⟩ := Nat.find_spec hex
          have hpk : Nat.find hex ≤ k := Nat.find_min' hex ⟨hgk, hxk⟩
          have hps : Nat.find hex < s := by
            by_contra hps
            rcases Nat.lt_or_ge (Nat.find hex) i with hpi | hpi
            · exact hnone _ (not_lt.mp hps) hpi hxp
            · have hpi' : Nat.find hex = i := by omega
              exact hxi (hpi' ▸ hxp)
          have hbetween := h.covers_between hc (hlt.trans hi) (first_first hi) hxp
            (fun k hgk hkp hxk => Nat.find_min hex hkp ⟨hgk, hxk⟩) (Nat.lt_succ_self _) hgp
          exact hbetween.mono (by omega)
      · have hnext : next xs i true = (i + 1) % xs.length := by
          simp only [next, if_true, heq]
        rw [hnext]
        exact hon

/-- **Rotation.**  From every position every element is visited within as many steps as the
list is long, whenever the position is looked up anew, if and only if the list is spread. -/
theorem covers_iff (xs : List α) :
    (∀ c ∈ xs, ∀ i < xs.length, Covers xs c xs.length i) ↔ Spread xs := by
  constructor
  · intro hall i hi hlt c hc
    by_contra hnone
    -- between the two places the walk can go round for ever
    have hloop : ∀ d k, first xs i < k → k ≤ i → ¬ Covers xs c d k := by
      intro d
      induction d with
      | zero => exact fun k hk hki hxk => hnone ⟨k, by omega, hk, hxk⟩
      | succ d ih =>
        rintro k hk hki (hxk | hnext)
        · exact hnone ⟨k, by omega, hk, hxk⟩
        · rcases hki.lt_or_eq with hki | rfl
          · have hn : next xs k false = k + 1 := by
              simp only [next, Bool.false_eq_true, if_false]
              exact Nat.mod_eq_of_lt (by omega)
            exact ih (k + 1) (by omega) hki (hn ▸ hnext false)
          · have hn : next xs k true = first xs k + 1 := by
              simp only [next, if_true]
              exact Nat.mod_eq_of_lt (by omega)
            exact ih (first xs k + 1) (Nat.lt_succ_self _) hk (hn ▸ hnext true)
    exact hloop _ i hlt (le_refl i) (hall c hc i hi)
  · intro h c hc i hi
    rcases Nat.lt_or_ge (xs.idxOf c) i with hlt | hge
    · have hbehind := h.covers_behind hc hlt (le_refl i) hi fun k hk hki => by omega
      exact hbehind.mono (by omega)
    · have hq := List.idxOf_lt_length_of_mem hc
      exact (h.covers_before hc hge).mono (by omega)

example : Spread [1, 2, 1] ∧ ¬ Spread [1, 1, 2] := by decide

/-- The walk over a list of choices. -/
def walk (xs : List α) (i : ℕ) (choices : List Bool) : ℕ := choices.foldl (next xs) i

/-- Cover, in terms of the choices on the way. -/
theorem covers_iff_walk {d : ℕ} :
    Covers xs c d i ↔ ∀ choices : List Bool, choices.length = d →
      ∃ k ≤ d, xs[walk xs i (choices.take k)]? = some c := by
  induction d generalizing i with
  | zero =>
    constructor
    · exact fun h choices _ => ⟨0, le_refl 0, h⟩
    · intro h
      obtain ⟨k, hk, hxk⟩ := h [] rfl
      rwa [List.take_nil] at hxk
  | succ d ih =>
    constructor
    · rintro (h | h) choices hlen
      · exact ⟨0, Nat.zero_le _, h⟩
      · obtain ⟨b, choices, rfl⟩ := List.exists_cons_of_length_eq_add_one hlen
        obtain ⟨k, hk, hxk⟩ := ih.mp (h b) choices (Nat.succ.inj hlen)
        exact ⟨k + 1, Nat.succ_le_succ hk, hxk⟩
    · intro h
      by_cases hxi : xs[i]? = some c
      · exact .inl hxi
      · refine .inr fun b => ih.mpr fun choices hlen => ?_
        obtain ⟨k, hk, hxk⟩ := h (b :: choices) (congrArg (· + 1) hlen)
        cases k with
        | zero => exact absurd hxk hxi
        | succ k => exact ⟨k, Nat.succ_le_succ_iff.mp hk, hxk⟩

end Rotation
