/-
# What the intersection algorithm computes

`intersect` sweeps over the sorted edges of the correctness intervals, once from below
and once from above, for a growing number of allowed falsetickers.  Here the sweeps are
compared with a definition that knows neither edges nor an order of visiting them: the
points that at least `n - allow` of the closed intervals hold.

* `chime_below`: the running count of a sweep is a covering number;
* `scanEdges_spec`: a sweep stops at the first edge where its count is large enough;
* `lowScan`, `highScan`: so it finds the least, or the greatest, shared point, and the
  midpoints it has passed are those outside;
* `overlap_eq_some_iff` and `intersect_spec` put the rounds together.
-/
import Carillon.Lib.Sweep
import Carillon.Discipline.Select

namespace Carillon.Discipline

open Sweep (cover shared)

variable {K : Type} [Field K] [LinearOrder K]

/-! ## The declarative reading -/

/-- The low end of a source's correctness interval. -/
def SourceState.lowEnd (s : SourceState K) : K := s.current - s.distance

/-- The high end of a source's correctness interval. -/
def SourceState.highEnd (s : SourceState K) : K := s.current + s.distance

/-- The points that at least `m` of the correctness intervals hold. -/
def agreedPoints (c : List (SourceState K)) (m : ℕ) : Set K :=
  shared SourceState.lowEnd SourceState.highEnd c m

/-- The number of midpoints outside an interval. -/
def midsOutside (c : List (SourceState K)) (lo hi : K) : ℕ :=
  c.countP fun s => decide (s.current < lo ∨ hi < s.current)

/-- With `allow` falsetickers the sources agree on the interval from `lo` to `hi`: its
ends are the outermost points that all others share, and no more than `allow` midpoints
lie outside. -/
structure Agree (c : List (SourceState K)) (allow : ℕ) (lo hi : K) : Prop where
  least : IsLeast (agreedPoints c (c.length - allow)) lo
  greatest : IsGreatest (agreedPoints c (c.length - allow)) hi
  lt : lo < hi
  mids : midsOutside c lo hi ≤ allow

/-! ## Edges -/

omit [Field K] in
theorem Edge.Le.trans {e f g : Edge K} (h : e.Le f) (h' : f.Le g) : e.Le g := by
  rcases h with h | ⟨hv, ht⟩
  · rcases h' with h' | ⟨hv', -⟩
    · exact .inl (h.trans h')
    · exact .inl (hv' ▸ h)
  · rcases h' with h' | ⟨hv', ht'⟩
    · exact .inl (hv ▸ h')
    · exact .inr ⟨hv.trans hv', ht.trans ht'⟩

instance : IsTrans (Edge K) Edge.Le := ⟨fun _ _ _ => Edge.Le.trans⟩

instance : Std.Total (Edge.Le (K := K)) where
  total e f := by
    rcases lt_trichotomy e.v f.v with h | h | h
    · exact .inl (.inl h)
    · rcases le_total e.t f.t with ht | ht
      · exact .inl (.inr ⟨h, ht⟩)
      · exact .inr (.inr ⟨h.symm, ht⟩)
    · exact .inr (.inl h)

omit [Field K] in
theorem Edge.Le.v_le {e f : Edge K} (h : e.Le f) : e.v ≤ f.v := by
  rcases h with h | ⟨h, -⟩
  · exact h.le
  · exact h.le

/-- The three edges of a source. -/
def SourceState.edges (s : SourceState K) : List (Edge K) :=
  [⟨s.lowEnd, -1⟩, ⟨s.current, 0⟩, ⟨s.highEnd, 1⟩]

/-- A list of edges as `intersect` sweeps over it. -/
structure EdgesOf (c : List (SourceState K)) (es : List (Edge K)) : Prop where
  perm : es.Perm (c.flatMap SourceState.edges)
  sorted : es.Pairwise Edge.Le

theorem edgesOf_edges (c : List (SourceState K)) : EdgesOf c (edges c) where
  perm := List.perm_insertionSort _ _
  sorted := List.pairwise_insertionSort _ _

variable {c : List (SourceState K)} {es : List (Edge K)}

theorem EdgesOf.t_mem (h : EdgesOf c es) :
    ∀ e ∈ es, e.t = -1 ∨ e.t = 0 ∨ e.t = 1 := by
  intro e he
  obtain ⟨s, -, hs⟩ := List.mem_flatMap.mp (h.perm.subset he)
  simp only [SourceState.edges, List.mem_cons, List.not_mem_nil, or_false] at hs
  rcases hs with rfl | rfl | rfl <;> simp

/-! ## The running count -/

/-- The intervals entered less those left over a list of edges. -/
def chime (es : List (Edge K)) : ℤ := (es.map fun e => -e.t).sum

omit [Field K] [LinearOrder K] in
@[simp] theorem chime_nil : chime ([] : List (Edge K)) = 0 := rfl

omit [Field K] [LinearOrder K] in
@[simp] theorem chime_cons (e : Edge K) (es : List (Edge K)) :
    chime (e :: es) = -e.t + chime es := by
  simp [chime]

omit [Field K] [LinearOrder K] in
@[simp] theorem chime_append (es fs : List (Edge K)) : chime (es ++ fs) = chime es + chime fs := by
  simp [chime]

/-- The edges up to the midpoints at `x`, so without the high ends at `x`. -/
def Edge.upTo (x : K) (e : Edge K) : Bool := decide (e.Le ⟨x, 0⟩)

theorem chime_filter_edges [IsStrictOrderedRing K] (x : K) :
    chime ((c.flatMap SourceState.edges).filter (Edge.upTo x)) =
      (c.countP fun s => decide (s.lowEnd ≤ x) : ℕ) - (c.countP fun s =>
        decide (s.highEnd < x) : ℕ) := by
  induction c with
  | nil => rfl
  | cons s c ih =>
    have hlow : Edge.upTo x ⟨s.lowEnd, -1⟩ = decide (s.lowEnd ≤ x) := by
      simp [Edge.upTo, Edge.Le, le_iff_lt_or_eq]
    have hhigh : Edge.upTo x ⟨s.highEnd, 1⟩ = decide (s.highEnd < x) := by
      simp [Edge.upTo, Edge.Le]
    rw [List.flatMap_cons, List.filter_append, chime_append, ih]
    simp only [SourceState.edges, List.filter_cons, List.filter_nil, List.countP_cons, hlow, hhigh]
    split_ifs <;> simp <;> ring

/-- **The running count is a covering number**: over the edges up to `x`, a sweep counts
the intervals that hold `x`. -/
theorem chime_below [IsStrictOrderedRing K] (h : EdgesOf c es) (hpos : ∀ s ∈ c, 0 < s.distance)
    (x : K) :
    chime (es.filter (Edge.upTo x)) = cover SourceState.lowEnd SourceState.highEnd c x := by
  have hends : ∀ s ∈ c, s.lowEnd ≤ s.highEnd := by
    intro s hs
    have := hpos s hs
    unfold SourceState.lowEnd SourceState.highEnd
    linarith
  have hperm : chime (es.filter (Edge.upTo x)) =
      chime ((c.flatMap SourceState.edges).filter (Edge.upTo x)) :=
    ((h.perm.filter _).map _).sum_eq
  have hcover := Sweep.cover_add hends x
  rw [hperm, chime_filter_edges]
  omega

/-- The midpoints below `x`, counted over the edges and over the sources. -/
theorem countP_mids (h : EdgesOf c es) (x : K) :
    es.countP (fun e => decide (e.t = 0 ∧ e.v < x)) =
      c.countP (fun s => decide (s.current < x)) := by
  rw [h.perm.countP_eq]
  have hedges : ∀ c : List (SourceState K), (c.flatMap SourceState.edges).countP
      (fun e => decide (e.t = 0 ∧ e.v < x)) = c.countP (fun s => decide (s.current < x)) := by
    intro c
    induction c with
    | nil => rfl
    | cons s c ih =>
      rw [List.flatMap_cons, List.countP_append, ih, List.countP_cons]
      simp [SourceState.edges, List.countP_cons, add_comm]
  exact hedges c

/-! ## A sweep from below -/

/-- A sweep from below stops at `e`: the count reaches `need` there and not before. -/
structure StopsAt (need : ℤ) (es p : List (Edge K)) (e : Edge K) (q : List (Edge K)) : Prop where
  split : es = p ++ e :: q
  reached : need ≤ chime (p ++ [e])
  before : ∀ r, r <+: p → r ≠ [] → chime r < need

omit [Field K] [LinearOrder K] in
/-- **What a sweep does**: it stops at the first edge where the count reaches `need`, and
has counted the midpoints before it; or the count never gets there. -/
theorem scanEdges_spec (need : ℤ) (es : List (Edge K)) (count : ℤ) (mids : ℕ) :
    (∃ p e q, StopsAt (need - count) es p e q ∧
        scanEdges (-1) need es count mids = (some e.v, mids + p.countP fun f => decide (f.t = 0))) ∨
    ((∀ r, r <+: es → r ≠ [] → chime r < need - count) ∧
      (scanEdges (-1) need es count mids).1 = none) := by
  induction es generalizing count mids with
  | nil => exact .inr ⟨fun r hr hne => absurd (List.prefix_nil.mp hr) hne, rfl⟩
  | cons e es ih =>
    unfold scanEdges
    dsimp only
    split
    case isTrue hreached =>
      refine .inl ⟨[], e, es, ⟨rfl, ?_, fun r hr hne => absurd (List.prefix_nil.mp hr) hne⟩, rfl⟩
      rw [List.nil_append, chime_cons, chime_nil]
      omega
    case isFalse hbefore =>
      -- a nonempty prefix starts with `e`, and the rest of it is one of the rest
      have hcons : ∀ l : List (Edge K),
          (∀ r, r <+: l → r ≠ [] → chime r < need - (count + -1 * e.t)) →
          ∀ r, r <+: e :: l → r ≠ [] → chime r < need - count := by
        intro l hl r hr hne
        rcases List.prefix_cons_iff.mp hr with rfl | ⟨rest, rfl, hrest⟩
        · exact absurd rfl hne
        · rw [chime_cons]
          by_cases hnil : rest = []
          · rw [hnil, chime_nil]
            omega
          · have := hl rest hrest hnil
            omega
      rcases ih (count + -1 * e.t) (if e.t = 0 then mids + 1 else mids) with
        ⟨p, f, q, hstop, hscan⟩ | ⟨hnever, hscan⟩
      · refine .inl ⟨e :: p, f, q, ⟨?_, ?_, hcons p hstop.before⟩, ?_⟩
        · rw [hstop.split, List.cons_append]
        · have := hstop.reached
          rw [List.cons_append, chime_cons]
          omega
        · rw [hscan, List.countP_cons]
          congr 1
          by_cases hmid : e.t = 0
          · simp only [hmid, decide_true, if_true]
            omega
          · simp only [hmid, decide_false, Bool.false_eq_true, if_false]
            omega
      · exact .inr ⟨hcons es hnever, hscan⟩

omit [Field K] in
theorem Edge.upTo_closed (x : K) (e f : Edge K) (h : e.Le f) (hf : f.upTo x = true) :
    e.upTo x = true :=
  decide_eq_true (h.trans (of_decide_eq_true hf))

section Stops

variable {c : List (SourceState K)} {es p q : List (Edge K)} {e : Edge K} {need : ℤ}

/-- Sorted around the edge where a sweep stops. -/
theorem StopsAt.sorted (h : EdgesOf c es) (hstop : StopsAt need es p e q) :
    p.Pairwise Edge.Le ∧ (∀ f ∈ p, f.Le e) ∧ ∀ f ∈ q, e.Le f := by
  have hsorted := h.sorted
  rw [hstop.split] at hsorted
  obtain ⟨hp, hq, hcross⟩ := List.pairwise_append.mp hsorted
  exact ⟨hp, fun f hf => hcross f hf e List.mem_cons_self, (List.pairwise_cons.mp hq).1⟩

/-- The count goes up at low ends only. -/
theorem StopsAt.low (h : EdgesOf c es) (hneed : 0 < need) (hstop : StopsAt need es p e q) :
    e.t = -1 := by
  have ht := h.t_mem e (by simp [hstop.split])
  have hp : chime p < need := by
    by_cases hnil : p = []
    · rwa [hnil, chime_nil]
    · exact hstop.before p (List.prefix_refl p) hnil
  have hreached := hstop.reached
  rw [chime_append, chime_cons, chime_nil] at hreached
  omega

/-- Where a sweep stops, `need` intervals overlap. -/
theorem StopsAt.shared [IsStrictOrderedRing K] (h : EdgesOf c es) (hpos : ∀ s ∈ c, 0 < s.distance)
    (hneed : 0 < need) (hstop : StopsAt need es p e q) :
    need ≤ cover SourceState.lowEnd SourceState.highEnd c e.v := by
  obtain ⟨-, hbefore, hafter⟩ := hstop.sorted h
  have hlow := hstop.low h hneed
  have hself : e.Le ⟨e.v, 0⟩ := .inr ⟨rfl, by show e.t ≤ 0; omega⟩
  have hkeep : es.filter (Edge.upTo e.v) = (p ++ [e]) ++ q.filter (Edge.upTo e.v) := by
    rw [hstop.split, List.append_cons p e q, List.filter_append]
    congr 1
    rw [List.filter_eq_self]
    intro f hf
    rcases List.mem_append.mp hf with hf | hf
    · exact decide_eq_true ((hbefore f hf).trans hself)
    · rw [List.mem_singleton.mp hf]
      exact decide_eq_true hself
  -- what else lies at this point are low ends and midpoints
  have hrest : 0 ≤ chime (q.filter (Edge.upTo e.v)) := by
    apply List.sum_nonneg
    intro z hz
    obtain ⟨f, hf, rfl⟩ := List.mem_map.mp hz
    obtain ⟨hfq, hup⟩ := List.mem_filter.mp hf
    have hup : f.Le ⟨e.v, 0⟩ := of_decide_eq_true hup
    rcases hup with hup | ⟨-, ht⟩
    · exact absurd (hafter f hfq).v_le (not_le.mpr hup)
    · have ht : f.t ≤ 0 := ht
      omega
  have hreached := hstop.reached
  rw [← chime_below h hpos, hkeep, chime_append]
  omega

/-- Before a sweep stops, no `need` intervals overlap: the edges up to such a point would
all come before the one where it stops. -/
theorem StopsAt.least [IsStrictOrderedRing K] (h : EdgesOf c es) (hpos : ∀ s ∈ c, 0 < s.distance)
    (hneed : 0 < need) (hstop : StopsAt need es p e q) {x : K}
    (hx : need ≤ cover SourceState.lowEnd SourceState.highEnd c x) : e.v ≤ x := by
  obtain ⟨hp, -, hafter⟩ := hstop.sorted h
  by_contra hlt
  have hlt : x < e.v := not_le.mp hlt
  have hnone : ∀ f ∈ e :: q, ¬ Edge.upTo x f = true := by
    intro f hf hup
    have hv : e.v ≤ f.v := by
      rcases List.mem_cons.mp hf with rfl | hf
      · exact le_refl _
      · exact (hafter f hf).v_le
    have hfx : f.v ≤ x := Edge.Le.v_le (of_decide_eq_true hup)
    exact absurd (hv.trans hfx) (not_le.mpr hlt)
  have hcut : es.filter (Edge.upTo x) = p.filter (Edge.upTo x) := by
    rw [hstop.split, List.filter_append, List.filter_eq_nil_iff.mpr hnone, List.append_nil]
  rw [← chime_below h hpos, hcut] at hx
  have hnonempty : p.filter (Edge.upTo x) ≠ [] := by
    intro hnil
    rw [hnil, chime_nil] at hx
    omega
  have := hstop.before _ (Sweep.filter_prefix hp (Edge.upTo_closed x)) hnonempty
  omega

/-- The midpoints passed are those below the point where a sweep stops. -/
theorem StopsAt.mids (h : EdgesOf c es) (hneed : 0 < need) (hstop : StopsAt need es p e q) :
    p.countP (fun f => decide (f.t = 0)) = c.countP fun s => decide (s.current < e.v) := by
  obtain ⟨-, hbefore, hafter⟩ := hstop.sorted h
  have hlow := hstop.low h hneed
  have hp : p.countP (fun f => decide (f.t = 0 ∧ f.v < e.v)) = p.countP fun f =>
      decide (f.t = 0) := by
    apply List.countP_congr
    intro f hf
    simp only [decide_eq_true_eq]
    refine ⟨fun hmid => hmid.1, fun hmid => ⟨hmid, ?_⟩⟩
    rcases hbefore f hf with hlt | ⟨-, ht⟩
    · exact hlt
    · omega
  have hq : (e :: q).countP (fun f => decide (f.t = 0 ∧ f.v < e.v)) = 0 := by
    rw [List.countP_eq_zero]
    intro f hf hmid
    have hmid := of_decide_eq_true hmid
    rcases List.mem_cons.mp hf with rfl | hf
    · exact lt_irrefl _ hmid.2
    · exact absurd (hafter f hf).v_le (not_le.mpr hmid.2)
  rw [← countP_mids h, hstop.split, List.countP_append, hp, hq, Nat.add_zero]

end Stops

/-- A sweep from below finds the least point that `need` intervals share, and the
midpoints it has passed are those below this point. -/
theorem lowScan [IsStrictOrderedRing K] (h : EdgesOf c es) (hpos : ∀ s ∈ c, 0 < s.distance)
    {need : ℕ} (hneed : 0 < need) (mids : ℕ) :
    (∃ lo, IsLeast (agreedPoints c need) lo ∧
      scanEdges (-1) need es 0 mids = (some lo, mids + c.countP fun s => decide (s.current < lo))) ∨
    (agreedPoints c need = ∅ ∧ (scanEdges (-1) need es 0 mids).1 = none) := by
  have hneed' : (0 : ℤ) < need := by exact_mod_cast hneed
  have hmem : ∀ x, x ∈ agreedPoints c need ↔
      (need : ℤ) ≤ cover SourceState.lowEnd SourceState.highEnd c x := by
    intro x
    rw [Nat.cast_le]
    rfl
  rcases scanEdges_spec need es 0 mids with ⟨p, e, q, hstop, hscan⟩ | ⟨hnever, hscan⟩
  · rw [sub_zero] at hstop
    refine .inl ⟨e.v, ⟨(hmem e.v).mpr (hstop.shared h hpos hneed'), fun x hx => ?_⟩, ?_⟩
    · exact hstop.least h hpos hneed' ((hmem x).mp hx)
    · rw [hscan, hstop.mids h hneed']
  · refine .inr ⟨Set.eq_empty_of_forall_notMem fun x hx => ?_, hscan⟩
    -- the edges up to a shared point are a prefix whose count is large enough
    have hcount := (hmem x).mp hx
    rw [← chime_below h hpos] at hcount
    have hnonempty : es.filter (Edge.upTo x) ≠ [] := by
      intro hnil
      rw [hnil, chime_nil] at hcount
      omega
    have := hnever _ (Sweep.filter_prefix h.sorted (Edge.upTo_closed x)) hnonempty
    omega

/-! ## A sweep from above -/

/-- The edge at the mirrored place; low and high ends change roles. -/
def Edge.mirror (e : Edge K) : Edge K := ⟨-e.v, -e.t⟩

/-- The source with its estimate mirrored. -/
def SourceState.mirror (s : SourceState K) : SourceState K := { s with current := -s.current }

theorem Edge.mirror_le [IsStrictOrderedRing K] {e f : Edge K} (h : e.Le f) :
    f.mirror.Le e.mirror := by
  rcases h with h | ⟨hv, ht⟩
  · exact .inl (neg_lt_neg h)
  · exact .inr ⟨congrArg Neg.neg hv.symm, neg_le_neg ht⟩

/-- The reversed and mirrored edges are those of the mirrored sources. -/
theorem EdgesOf.mirror [IsStrictOrderedRing K] (h : EdgesOf c es) :
    EdgesOf (c.map SourceState.mirror) (es.reverse.map Edge.mirror) := by
  constructor
  · have hsource : ∀ s : SourceState K, (s.edges.map Edge.mirror).Perm s.mirror.edges := by
      intro s
      have hlow : -(s.current + s.distance) = -s.current - s.distance := by ring
      have hhigh : -(s.current - s.distance) = -s.current + s.distance := by ring
      simp only [SourceState.edges, SourceState.mirror, Edge.mirror, SourceState.lowEnd,
        SourceState.highEnd, List.map_cons, List.map_nil, hlow, hhigh, neg_neg, neg_zero]
      exact (List.reverse_perm _).symm
    have hperm :
        (es.reverse.map Edge.mirror).Perm ((c.flatMap SourceState.edges).map Edge.mirror) :=
      ((List.reverse_perm es).trans h.perm).map _
    refine hperm.trans ?_
    rw [List.map_flatMap, List.flatMap_map]
    exact List.Perm.flatMap_left c fun s _ => hsource s
  · rw [List.pairwise_map, List.pairwise_reverse]
    exact h.sorted.imp fun hle => Edge.mirror_le hle

omit [LinearOrder K] in
/-- A sweep in the other direction is one from below over the mirrored edges. -/
theorem scanEdges_mirror (need : ℤ) (es : List (Edge K)) (count : ℤ) (mids : ℕ) :
    scanEdges 1 need es count mids =
      Prod.map (Option.map Neg.neg) id (scanEdges (-1) need (es.map Edge.mirror) count mids) := by
  induction es generalizing count mids with
  | nil => rfl
  | cons e es ih =>
    have hcount : count + -1 * e.mirror.t = count + 1 * e.t := by simp [Edge.mirror]
    have hmid : e.mirror.t = 0 ↔ e.t = 0 := by simp [Edge.mirror]
    rw [List.map_cons]
    unfold scanEdges
    dsimp only
    rw [hcount, ih]
    split
    · simp [Edge.mirror]
    · simp only [hmid]

theorem agreedPoints_mirror [IsStrictOrderedRing K] (c : List (SourceState K)) (m : ℕ) :
    agreedPoints (c.map SourceState.mirror) m =
      shared (fun s : SourceState K => -s.highEnd) (fun s => -s.lowEnd) c m := by
  have hcover : ∀ x, cover SourceState.lowEnd SourceState.highEnd (c.map SourceState.mirror) x =
      cover (fun s : SourceState K => -s.highEnd) (fun s => -s.lowEnd) c x := by
    intro x
    unfold cover
    rw [List.countP_map]
    congr 1
    funext s
    have hlow : s.mirror.lowEnd = -s.highEnd := by
      simp only [SourceState.lowEnd, SourceState.highEnd, SourceState.mirror]
      ring
    have hhigh : s.mirror.highEnd = -s.lowEnd := by
      simp only [SourceState.lowEnd, SourceState.highEnd, SourceState.mirror]
      ring
    simp only [Function.comp_apply, hlow, hhigh]
  ext x
  show m ≤ _ ↔ m ≤ _
  rw [hcover]

/-- A sweep from above finds the greatest shared point, and passes the midpoints above it. -/
theorem highScan [IsStrictOrderedRing K] (h : EdgesOf c es) (hpos : ∀ s ∈ c, 0 < s.distance)
    {need : ℕ} (hneed : 0 < need) (mids : ℕ) :
    (∃ hi, IsGreatest (agreedPoints c need) hi ∧ scanEdges 1 need es.reverse 0 mids
      = (some hi, mids + c.countP fun s => decide (hi < s.current))) ∨
    (agreedPoints c need = ∅ ∧ (scanEdges 1 need es.reverse 0 mids).1 = none) := by
  have hmirror : ∀ s ∈ c.map SourceState.mirror, 0 < s.distance := by
    intro s hs
    obtain ⟨t, ht, rfl⟩ := List.mem_map.mp hs
    exact hpos t ht
  rw [scanEdges_mirror]
  rcases lowScan h.mirror hmirror hneed mids with ⟨lo, hleast, hscan⟩ | ⟨hempty, hscan⟩
  · left
    refine ⟨-lo, ?_, ?_⟩
    · rw [agreedPoints_mirror, ← neg_neg lo, Sweep.isLeast_shared_neg] at hleast
      exact hleast
    · rw [hscan, List.countP_map]
      have hmids : (fun s : SourceState K => decide (s.current < lo)) ∘ SourceState.mirror =
          fun s => decide (-lo < s.current) := by
        funext s
        simp [SourceState.mirror, neg_lt]
      rw [hmids]
      rfl
  · right
    constructor
    · rw [agreedPoints_mirror] at hempty
      apply Set.eq_empty_of_forall_notMem
      intro x hx
      have hx' : -x ∈ (∅ : Set K) := by
        rw [← hempty]
        show need ≤ _
        rw [Sweep.cover_neg]
        exact hx
      exact hx'
    · rw [Prod.map_fst, hscan]
      rfl

/-! ## The rounds -/

omit [Field K] in
/-- Below and above an interval exclude each other, so the two counts add up. -/
theorem countP_add_countP (c : List (SourceState K)) {lo hi : K} (h : lo < hi) :
    c.countP (fun s => decide (s.current < lo)) + c.countP (fun s => decide (hi < s.current)) =
      midsOutside c lo hi := by
  unfold midsOutside
  induction c with
  | nil => rfl
  | cons s c ih =>
    simp only [List.countP_cons, decide_eq_true_eq, ← ih]
    by_cases hbelow : s.current < lo
    · have habove : ¬ hi < s.current := not_lt.mpr (hbelow.trans h).le
      simp only [hbelow, habove, or_false, if_true, if_false]
      omega
    · simp only [hbelow, false_or, if_false]
      omega

/-- One round finds the interval on which the sources agree with `allow` falsetickers. -/
theorem overlap_eq_some_iff [IsStrictOrderedRing K] (hpos : ∀ s ∈ c, 0 < s.distance) {allow : ℕ}
    (hallow : 2 * allow < c.length) (lo hi : K) :
    overlap (edges c) c.length allow = some (lo, hi) ↔ Agree c allow lo hi := by
  have hneed : 0 < c.length - allow := by omega
  have hcast : ((c.length : ℤ) - (allow : ℤ)) = ((c.length - allow : ℕ) : ℤ) := by omega
  unfold overlap
  dsimp only
  rw [hcast]
  rcases lowScan (edgesOf_edges c) hpos hneed 0 with ⟨lo', hleast, hlow⟩ | ⟨hempty, hlow⟩
  · rw [hlow]
    dsimp only
    rcases highScan (edgesOf_edges c) hpos hneed
      (0 + c.countP fun s => decide (s.current < lo')) with
      ⟨hi', hgreatest, hhigh⟩ | ⟨hempty, -⟩
    · rw [hhigh]
      dsimp only
      rw [Nat.zero_add]
      constructor
      · intro hsome
        split at hsome
        · cases hsome
        case isFalse hfew =>
          split at hsome
          case isTrue hlt =>
            cases hsome
            exact ⟨hleast, hgreatest, hlt, countP_add_countP c hlt ▸ not_lt.mp hfew⟩
          case isFalse => cases hsome
      · intro hagree
        have hlo : lo' = lo := hleast.unique hagree.least
        have hhi : hi' = hi := hgreatest.unique hagree.greatest
        subst hlo hhi
        rw [countP_add_countP c hagree.lt, if_neg (not_lt.mpr hagree.mids), if_pos hagree.lt]
    · exact absurd hleast.1 (by rw [hempty]; exact Set.notMem_empty _)
  · constructor
    · intro hsome
      split at hsome
      · cases hsome
      · rw [hlow] at hsome
        cases hsome
    · intro hagree
      exact absurd hagree.least.1 (by rw [hempty]; exact Set.notMem_empty _)

/-- The rounds go up from no falseticker, and the first that succeeds counts. -/
theorem agree_of_intersection [IsStrictOrderedRing K] (hpos : ∀ s ∈ c, 0 < s.distance) {lo hi : K}
    (h : intersection c = some (lo, hi)) :
    ∃ allow, 2 * allow < c.length ∧ Agree c allow lo hi ∧ ∀ fewer < allow, ∀ l h,
      ¬ Agree c fewer l h := by
  obtain ⟨rounds, allow, rest, hrange, hround, hnone⟩ := List.findSome?_eq_some_iff.mp h
  have hallow : allow = rounds.length := by
    have hget : (List.range ((c.length + 1) / 2))[rounds.length]? = some allow := by
      rw [hrange, List.getElem?_append_right (le_refl _)]
      simp
    obtain ⟨hlt, hget⟩ := List.getElem?_eq_some_iff.mp hget
    rw [List.getElem_range] at hget
    exact hget.symm
  have hlt : allow < (c.length + 1) / 2 := by
    rw [← List.mem_range, hrange]
    simp
  refine ⟨allow, by omega, (overlap_eq_some_iff hpos (by omega) lo hi).mp hround, ?_⟩
  intro fewer hfewer l h hagree
  -- a smaller number of falsetickers was tried in an earlier round
  have hmem : fewer ∈ rounds := by
    have hget : (List.range ((c.length + 1) / 2))[fewer]? = some fewer :=
      List.getElem?_range (by omega)
    rw [hrange, List.getElem?_append_left (by omega)] at hget
    exact List.mem_of_getElem? hget
  have hsome := (overlap_eq_some_iff hpos (by omega) l h).mpr hagree
  rw [hnone fewer hmem] at hsome
  cases hsome

theorem not_agree_of_intersection [IsStrictOrderedRing K] (hpos : ∀ s ∈ c, 0 < s.distance)
    (h : intersection c = none) {allow : ℕ} (hallow : 2 * allow < c.length) (lo hi : K) :
    ¬ Agree c allow lo hi := by
  intro hagree
  have hround := List.findSome?_eq_none_iff.mp h allow (List.mem_range.mpr (by omega))
  rw [(overlap_eq_some_iff hpos hallow lo hi).mpr hagree] at hround
  cases hround

/-- The test of `intersect` for a falseticker, as a statement about intervals. -/
theorem overlaps_iff [IsStrictOrderedRing K] {s : SourceState K} (hpos : 0 < s.distance) {lo hi : K}
    (h : lo ≤ hi) :
    s.overlaps (lo, hi) = true ↔ (Set.Icc s.lowEnd s.highEnd ∩ Set.Icc lo hi).Nonempty := by
  have hends : s.lowEnd ≤ s.highEnd := by
    unfold SourceState.lowEnd SourceState.highEnd
    linarith
  have hbool : s.overlaps (lo, hi) = true ↔ lo ≤ s.highEnd ∧ s.lowEnd ≤ hi := by
    simp [SourceState.overlaps, SourceState.lowEnd, SourceState.highEnd]
  rw [hbool, Set.Icc_inter_Icc, Set.nonempty_Icc, sup_le_iff, le_inf_iff, le_inf_iff]
  exact ⟨fun hmeet => ⟨⟨hends, hmeet.2⟩, hmeet.1, h⟩, fun hmeet => ⟨hmeet.2.1, hmeet.1.2⟩⟩

/-- **The intersection meets its declarative specification.**  Either the sources agree
on an interval with some number of falsetickers below half, and the least such number
decides: `Low` and `High` are the outermost points that all the others share, the
survivors are the sources whose interval meets it, and they are a majority.  Or the
sources agree with no admissible number, and all of them are falsetickers. -/
theorem intersect_spec [IsStrictOrderedRing K] (c : List (SourceState K))
    (hpos : ∀ s ∈ c, 0 < s.distance) :
    (∃ allow lo hi, 2 * allow < c.length ∧ Agree c allow lo hi ∧
      (∀ fewer < allow, ∀ l h, ¬ Agree c fewer l h) ∧ lowHigh c = (lo, hi) ∧
      (∃ p : SourceState K → Bool,
        (∀ s ∈ c, p s = true ↔ (Set.Icc s.lowEnd s.highEnd ∩ Set.Icc lo hi).Nonempty) ∧
        intersect c = (c.filter p, (c.filter (!p ·)).map ({ · with status := .falseticker }))) ∧
      c.length < 2 * (intersect c).1.length ∧
      ∀ x, c.length - allow ≤ cover SourceState.lowEnd SourceState.highEnd c x →
        x ∈ Set.Icc lo hi ∧ ∀ s ∈ c, x ∈ Set.Icc s.lowEnd s.highEnd → s ∈ (intersect c).1) ∨
    ((∀ allow, 2 * allow < c.length → ∀ lo hi, ¬ Agree c allow lo hi) ∧
      intersect c = ([], c.map ({ · with status := .falseticker }))) := by
  cases hint : intersection c with
  | none =>
    refine .inr ⟨fun allow hallow lo hi => not_agree_of_intersection hpos hint hallow lo hi, ?_⟩
    unfold intersect
    rw [hint]
  | some i =>
    obtain ⟨lo, hi⟩ := i
    obtain ⟨allow, hallow, hagree, hleast⟩ := agree_of_intersection hpos hint
    have hintersect : intersect c = (c.filter (·.overlaps (lo, hi)),
        (c.filter (!·.overlaps (lo, hi))).map ({ · with status := .falseticker })) := by
      unfold intersect
      rw [hint]
    -- whoever covers a point of the interval meets the interval
    have hsurvive : ∀ x ∈ Set.Icc lo hi, ∀ s ∈ c, x ∈ Set.Icc s.lowEnd s.highEnd →
        s.overlaps (lo, hi) = true :=
      fun x hx s hs hcovers => (overlaps_iff (hpos s hs) hagree.lt.le).mpr ⟨x, hcovers, hx⟩
    refine .inl ⟨allow, lo, hi, hallow, hagree, hleast, ?_, ⟨(·.overlaps (lo, hi)), ?_, hintersect⟩,
      ?_, ?_⟩
    · unfold lowHigh
      rw [hint]
      rfl
    · exact fun s hs => overlaps_iff (hpos s hs) hagree.lt.le
    · rw [hintersect]
      apply Sweep.majority hallow hagree.least.1
      intro s hs hlow hhigh
      exact hsurvive lo ⟨le_refl _, hagree.lt.le⟩ s hs ⟨hlow, hhigh⟩
    · intro x hx
      have hinside : x ∈ Set.Icc lo hi := ⟨hagree.least.2 hx, hagree.greatest.2 hx⟩
      refine ⟨hinside, fun s hs hcovers => ?_⟩
      rw [hintersect]
      exact List.mem_filter.mpr ⟨hs, hsurvive x hinside s hs hcovers⟩

/-- Three servers, the last of which is far off. -/
def trio : List (SourceState ℚ) :=
  let at_ (name : Name) (current distance : ℚ) : SourceState ℚ :=
    { SourceState.fresh name ⟨false, false, false, false, false⟩ with
      current := current, distance := distance }
  [at_ .a 0 (1 / 5), at_ .b (1 / 10) (1 / 5), at_ .c 5 (1 / 10)]

theorem intersect_spec_trio :
    (∀ s ∈ trio, 0 < s.distance) ∧ ∃ allow lo hi, 2 * allow < trio.length ∧ Agree trio allow lo hi ∧
      lowHigh trio = (lo, hi) := by
  have hpos : ∀ s ∈ trio, 0 < s.distance := by decide +kernel
  refine ⟨hpos, ?_⟩
  rcases intersect_spec trio hpos with ⟨allow, lo, hi, hallow, hagree, -, hlow, -⟩ | ⟨-, hnone⟩
  · exact ⟨allow, lo, hi, hallow, hagree, hlow⟩
  · have hsome : (intersect trio).1.length = 2 := by decide +kernel
    rw [hnone] at hsome
    cases hsome

end Carillon.Discipline
