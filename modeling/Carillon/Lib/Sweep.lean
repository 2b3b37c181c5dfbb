/-
# Covering numbers of closed intervals

A family of closed intervals on a line is given by its end points `lo` and `hi` over a
list of indices.  `cover` counts the intervals that hold a point, and `shared` is the
set of the points held by at least `m` of them.

An algorithm that sweeps over the sorted end points sees one prefix of them after the
other.  The rules here are what such an algorithm is measured by: a point is covered
by the intervals that have begun less those that have ended (`cover_add`), the points
below a bound are a prefix of a sorted list (`filter_prefix`), and a sweep from above is
a sweep from below over the mirrored intervals (`isLeast_shared_neg`).
-/
import Mathlib.Tactic

namespace Sweep

variable {ι K : Type*}

section Cover

variable [LinearOrder K] {lo hi : ι → K}

/-- The number of intervals that hold the point `x`. -/
def cover (lo hi : ι → K) (l : List ι) (x : K) : ℕ :=
  l.countP fun i => decide (lo i ≤ x ∧ x ≤ hi i)

/-- The points that at least `m` of the intervals hold. -/
def shared (lo hi : ι → K) (l : List ι) (m : ℕ) : Set K :=
  {x | m ≤ cover lo hi l x}

/-- The intervals that hold a point have begun and have not ended. -/
theorem cover_add {l : List ι} (h : ∀ i ∈ l, lo i ≤ hi i) (x : K) :
    cover lo hi l x + l.countP (fun i => decide (hi i < x)) =
      l.countP (fun i => decide (lo i ≤ x)) := by
  induction l with
  | nil => rfl
  | cons i l ih =>
    have hi' := h i List.mem_cons_self
    have hl := ih fun j hj => h j (List.mem_cons_of_mem i hj)
    unfold cover at hl ⊢
    simp only [List.countP_cons, decide_eq_true_eq]
    -- an interval that has ended has begun, and then it does not hold the point
    by_cases hended : hi i < x
    · have hbegun : lo i ≤ x := hi'.trans hended.le
      simp only [hended, hbegun, not_le.mpr hended, and_false, if_true, if_false]
      omega
    · simp only [hended, not_lt.mp hended, and_true, if_false]
      omega

/-- If fewer than half of the intervals miss a point, then those with a property that
every interval over this point has are a majority. -/
theorem majority {l : List ι} {allow : ℕ} {x : K} (hallow : 2 * allow < l.length)
    (hx : x ∈ shared lo hi l (l.length - allow)) {p : ι → Bool}
    (hp : ∀ i ∈ l, lo i ≤ x → x ≤ hi i → p i = true) : l.length < 2 * (l.filter p).length := by
  have hcover : l.length - allow ≤ cover lo hi l x := hx
  have hle : cover lo hi l x ≤ l.countP p := by
    apply List.countP_mono_left
    intro i hi' hheld
    have hheld := of_decide_eq_true hheld
    exact hp i hi' hheld.1 hheld.2
  rw [← List.countP_eq_length_filter]
  omega

end Cover

/-- The elements that meet a downward closed condition are a prefix of a sorted list. -/
theorem filter_prefix {α : Type*} {r : α → α → Prop} {p : α → Bool} {l : List α}
    (hl : l.Pairwise r) (hp : ∀ a b, r a b → p b = true → p a = true) : l.filter p <+: l := by
  induction l with
  | nil => simp
  | cons a l ih =>
    obtain ⟨hhead, htail⟩ := List.pairwise_cons.mp hl
    by_cases ha : p a = true
    · rw [List.filter_cons_of_pos ha]
      exact (List.prefix_cons_inj a).mpr (ih htail)
    · -- nothing behind `a` can meet the condition either
      have hnone : (a :: l).filter p = [] := by
        rw [List.filter_eq_nil_iff]
        intro b hb hpb
        rcases List.mem_cons.mp hb with rfl | hb
        · exact ha hpb
        · exact ha (hp a b (hhead b hb) hpb)
      rw [hnone]
      exact List.nil_prefix

section Mirror

variable [AddCommGroup K] [LinearOrder K] [IsOrderedAddMonoid K] {lo hi : ι → K}

theorem cover_neg (l : List ι) (x : K) :
    cover (fun i => -hi i) (fun i => -lo i) l (-x) = cover lo hi l x := by
  unfold cover
  congr 1
  funext i
  simp [and_comm]

/-- The least shared point of the mirrored intervals is the greatest one of the
intervals themselves. -/
theorem isLeast_shared_neg {l : List ι} {m : ℕ} {x : K} :
    IsLeast (shared (fun i => -hi i) (fun i => -lo i) l m) (-x) ↔
      IsGreatest (shared lo hi l m) x := by
  have hmem : ∀ y : K, -y ∈ shared (fun i => -hi i) (fun i => -lo i) l m ↔
      y ∈ shared lo hi l m := by
    intro y
    show m ≤ cover _ _ l (-y) ↔ m ≤ cover lo hi l y
    rw [cover_neg]
  constructor
  · rintro ⟨hx, hleast⟩
    refine ⟨(hmem x).mp hx, fun y hy => ?_⟩
    exact neg_le_neg_iff.mp (hleast ((hmem y).mpr hy))
  · rintro ⟨hx, hgreatest⟩
    refine ⟨(hmem x).mpr hx, fun y hy => ?_⟩
    have hy' : -y ∈ shared lo hi l m := (hmem (-y)).mp (by rwa [neg_neg])
    exact neg_le.mp (hgreatest hy')

end Mirror

end Sweep
