/-
# The clock filter and its batch definition

`Filter.Add` ages, clamps and overwrites a register of eight stages.  `Batch` states what it
is for: an estimate computed at once from the latest eight samples as they came, each aged
from its own time to now.  The two agree in every run of `Add` and `Reset` whose times
increase, and the register never goes eight samples without a new estimate.
-/
import Carillon.Discipline.Filter
import Carillon.Lib.Ring
import Carillon.Lib.Runs

namespace Carillon.Discipline

open HasSqrt (sqrt)
open Ring (latest)

variable {K : Type} [Field K] [LinearOrder K]

/-! ## The estimate from the samples -/

/-- A sample at a time: its dispersion has grown since it was taken, up to `MaxDispersion`. -/
def Stage.aged (s : Stage K) (now : K) : Stage K :=
  { s with disp := min maxDispersion (s.disp + phi * (now - s.t)) }

namespace Batch

/-- The samples of a window, aged and ranked by distance, the fresher first among equals. -/
def ranking (window : List (Stage K)) (now : K) : List (Stage K) :=
  (window.map (·.aged now)).insertionSort (Stage.Ahead now)

/-- How many samples are usable: those below `MaxDistance`, and of the others below
`MaxDispersion` as many as it takes to have two. -/
def usable (now : K) (order : List (Stage K)) : ℕ :=
  max (order.countP fun s => decide (s.rank now < maxDistance))
    (min 2 (order.countP fun s => decide (s.rank now < maxDispersion)))

/-- The dispersions weighted by rank, and what the absent stages add to them. -/
def dispersion (order : List (Stage K)) : K :=
  (order.mapIdx fun i s => s.disp / 2 ^ (i + 1)).sum +
    if order.length < filterStages
      then primingDispersion * (1 / 2 ^ order.length - 1 / 2 ^ filterStages) else 0

variable [HasSqrt K]

/-- The RMS distance of the other usable samples from the winner, at least the floor. -/
def jitter (floor : K) (best : Stage K) (others : List (Stage K)) : K :=
  max (if others = [] then 0
    else sqrt ((others.map fun s => (s.offset - best.offset) ^ 2).sum / others.length)) floor

/-- The estimate; all zero when no sample is usable. -/
def output (floor : K) (window : List (Stage K)) (now : K) : Output K :=
  let order := ranking window now
  match order with
  | [] => ⟨0, 0, 0, 0, 0, 0⟩
  | best :: others =>
    if usable now order = 0 then ⟨0, 0, 0, 0, 0, 0⟩
    else
      { offset := best.offset
        delay := best.delay
        dispersion := dispersion order
        jitter := jitter floor best (others.take (usable now order - 1))
        at_ := best.t
        samples := usable now order }

omit [HasSqrt K] in
/-- The estimate is new: a sample is usable, and the winner is newer than every winner
reported so far. -/
def updated (reported : List K) (window : List (Stage K)) (now : K) : Bool :=
  decide (0 < usable now (ranking window now)) &&
    (ranking window now).head?.any fun best => reported.all fun t => decide (t < best.t)

end Batch

/-! ## The ranking -/

variable {now : K}

section Ranking

theorem Stage.Ahead.rank_le {a b : Stage K} (h : a.Ahead now b) :
    a.rank now ≤ b.rank now := by
  unfold Stage.Ahead at h
  split at h
  case isTrue heq => exact heq.le
  case isFalse => exact h.le

instance (now : K) : IsTrans (Stage K) (Stage.Ahead now) where
  trans a b c hab hbc := by
    have hle := hab.rank_le.trans hbc.rank_le
    unfold Stage.Ahead at hab hbc ⊢
    split
    case isTrue heq =>
      -- all three have one rank
      have hb : a.rank now = b.rank now := by
        by_contra hne
        rw [if_neg hne] at hab
        have hbc' : b.rank now ≤ c.rank now := by
          split at hbc
          · exact le_of_eq ‹_›
          · exact hbc.le
        exact absurd heq (hab.trans_le hbc').ne
      rw [if_pos hb] at hab
      rw [if_pos (hb.symm.trans heq)] at hbc
      exact hbc.trans hab
    case isFalse hne => exact lt_of_le_of_ne hle hne

instance (now : K) : Std.Total (Stage.Ahead (K := K) now) where
  total a b := by
    unfold Stage.Ahead
    by_cases h : a.rank now = b.rank now
    · rw [if_pos h, if_pos h.symm]
      exact le_total b.t a.t
    · rw [if_neg h, if_neg (Ne.symm h)]
      exact lt_or_gt_of_ne h

/-- Two samples that are each ahead of the other are of the same time. -/
theorem Stage.Ahead.t_eq {a b : Stage K} (hab : a.Ahead now b) (hba : b.Ahead now a) :
    a.t = b.t := by
  have hrank := le_antisymm hab.rank_le hba.rank_le
  unfold Stage.Ahead at hab hba
  rw [if_pos hrank] at hab
  rw [if_pos hrank.symm] at hba
  exact le_antisymm hba hab

/-- A register of samples of different times has one ranking, in whatever order it stands. -/
theorem insertionSort_ahead_eq {l₁ l₂ : List (Stage K)} (hperm : l₁.Perm l₂)
    (hdistinct : (l₂.map Stage.t).Nodup) :
    l₁.insertionSort (Stage.Ahead now) = l₂.insertionSort (Stage.Ahead now) := by
  have hp₁ := List.perm_insertionSort (Stage.Ahead now) l₁
  have hp₂ := List.perm_insertionSort (Stage.Ahead now) l₂
  refine List.Perm.eq_of_pairwise ?_ (List.pairwise_insertionSort _ l₁)
    (List.pairwise_insertionSort _ l₂) ((hp₁.trans hperm).trans hp₂.symm)
  intro a b ha hb hab hba
  exact List.inj_on_of_nodup_map hdistinct ((hp₁.trans hperm).subset ha) (hp₂.subset hb)
    (hab.t_eq hba)

/-- The scan for usable samples, in closed form. -/
theorem usable_eq [IsStrictOrderedRing K] {order : List (Stage K)}
    (hsorted : order.Pairwise fun a b => a.rank now ≤ b.rank now) (m : ℕ) :
    usable now order m =
      max (m + order.countP fun s => decide (s.rank now < maxDistance))
        (min (max 2 m) (m + order.countP fun s => decide (s.rank now < maxDispersion))) := by
  have hdistance : (maxDistance : K) ≤ maxDispersion := by norm_num [maxDistance, maxDispersion]
  induction order generalizing m with
  | nil => simp [usable]
  | cons s order ih =>
    obtain ⟨hhead, htail⟩ := List.pairwise_cons.mp hsorted
    -- what is behind a sample beyond a limit is beyond it, too
    have hbeyond : ∀ limit : K, limit ≤ s.rank now →
        (order.countP fun s => decide (s.rank now < limit)) = 0 := by
      intro limit hlimit
      refine List.countP_eq_zero.mpr fun r hr => ?_
      simpa using hlimit.trans (hhead r hr)
    rw [usable, List.countP_cons, List.countP_cons]
    split
    case isTrue hstop =>
      rcases hstop with hstop | ⟨hm, hstop⟩
      · have h1 : ¬ s.rank now < maxDispersion := not_lt.mpr hstop
        have h2 : ¬ s.rank now < maxDistance := not_lt.mpr (hdistance.trans hstop)
        simp only [h1, h2, decide_false, Bool.false_eq_true, if_false,
          hbeyond _ hstop, hbeyond _ (hdistance.trans hstop)]
        omega
      · have h2 : ¬ s.rank now < maxDistance := not_lt.mpr hstop
        simp only [h2, decide_false, Bool.false_eq_true, if_false, hbeyond _ hstop]
        omega
    case isFalse hgo =>
      rw [not_or, not_and, not_le, not_le] at hgo
      rw [ih htail]
      simp only [hgo.1, decide_true, if_true]
      by_cases hnear : s.rank now < maxDistance
      · simp only [hnear, decide_true, if_true]
        have hm := fun h2 : 2 ≤ m => hgo.2 h2
        omega
      · have hm : ¬ 2 ≤ m := fun h2 => hnear (hgo.2 h2)
        simp only [hnear, decide_false, Bool.false_eq_true, if_false,
          hbeyond _ (not_lt.mp hnear)]
        omega

theorem ranking_sorted (window : List (Stage K)) (now : K) :
    (Batch.ranking window now).Pairwise fun a b => a.rank now ≤ b.rank now :=
  (List.pairwise_insertionSort _ _).imp Stage.Ahead.rank_le

theorem usable_ranking [IsStrictOrderedRing K] (window : List (Stage K)) (now : K) :
    usable now (Batch.ranking window now) 0 = Batch.usable now (Batch.ranking window now) := by
  rw [usable_eq (ranking_sorted window now), Batch.usable]
  omega

theorem batch_usable_le (now : K) (order : List (Stage K)) :
    Batch.usable now order ≤ order.length :=
  max_le List.countP_le_length ((min_le_right _ _).trans List.countP_le_length)

end Ranking

/-! ## The estimate -/

omit [LinearOrder K] in
/-- The dispersion that is folded from the back, in closed form. -/
theorem foldr_dispersion (order : List (Stage K)) (absent : K) :
    order.foldr (fun s d => (d + s.disp) / 2) absent =
      (order.mapIdx fun i s => s.disp / 2 ^ (i + 1)).sum + absent / 2 ^ order.length := by
  induction order with
  | nil => simp
  | cons s order ih =>
    have hshift : order.mapIdx (fun i s => s.disp / 2 ^ (i + 1 + 1)) =
        (order.mapIdx fun i s => s.disp / 2 ^ (i + 1)).map fun d => d * (1 / 2) := by
      rw [List.mapIdx_eq_zipIdx_map, List.mapIdx_eq_zipIdx_map, List.map_map]
      refine List.map_congr_left fun ⟨s, i⟩ _ => ?_
      show s.disp / 2 ^ (i + 1 + 1) = s.disp / 2 ^ (i + 1) * (1 / 2)
      rw [pow_succ _ (i + 1), mul_one_div, div_div]
    rw [List.foldr_cons, ih, List.mapIdx_cons, List.sum_cons, hshift, List.sum_map_mul_right,
      List.map_id', List.length_cons]
    ring

/-- The estimate of the register is the estimate of the batch. -/
theorem estimate_eq [IsStrictOrderedRing K] [HasSqrt K] (floor : K) (best : Stage K)
    (others : List (Stage K)) {m : ℕ} (hpos : m ≠ 0) (hle : m ≤ (best :: others).length) :
    estimate floor best (best :: others) m =
      { offset := best.offset
        delay := best.delay
        dispersion := Batch.dispersion (best :: others)
        jitter := Batch.jitter floor best (others.take (m - 1))
        at_ := best.t
        samples := m } := by
  obtain ⟨k, rfl⟩ := Nat.exists_eq_succ_of_ne_zero hpos
  have hk : k ≤ others.length := Nat.succ_le_succ_iff.mp hle
  have hdispersion : (best :: others).foldr (fun s d => (d + s.disp) / 2)
      (if (best :: others).length < filterStages
        then primingDispersion * (1 - 1 / 2 ^ (filterStages - (best :: others).length)) else 0) =
      Batch.dispersion (best :: others) := by
    rw [foldr_dispersion, Batch.dispersion]
    congr 1
    split
    case isTrue hlt =>
      -- the absent stages, halved once for each stage that is there
      generalize (best :: others).length = n at hlt ⊢
      have hsplit : (2 : K) ^ filterStages = 2 ^ (filterStages - n) * 2 ^ n := by
        rw [← pow_add, Nat.sub_add_cancel hlt.le]
      rw [hsplit]
      have h2 : (2 : K) ≠ 0 := two_ne_zero
      field_simp
    case isFalse => rw [zero_div]
  have hjitter : (if 1 < k + 1 then
        sqrt (((((best :: others).take (k + 1)).drop 1).map fun s =>
          (s.offset - best.offset) ^ 2).sum / (((k + 1 : ℕ) : K) - 1))
      else ((((best :: others).take (k + 1)).drop 1).map fun s =>
        (s.offset - best.offset) ^ 2).sum) =
      if others.take k = [] then (0 : K)
      else sqrt (((others.take k).map fun s => (s.offset - best.offset) ^ 2).sum /
        (others.take k).length) := by
    rw [List.take_succ_cons, List.drop_one, List.tail_cons, List.length_take, Nat.min_eq_left hk]
    cases k with
    | zero => simp
    | succ k =>
      have hne : others.take (k + 1) ≠ [] := by
        intro hnil
        have hlen := congrArg List.length hnil
        rw [List.length_take, List.length_nil] at hlen
        omega
      rw [if_pos (by omega), if_neg hne]
      push_cast
      rw [add_sub_cancel_right]
  unfold estimate Batch.jitter
  dsimp only
  rw [hdispersion, hjitter]
  rfl

variable {window : List (Stage K)}

/-- The winner is one of the samples of the window. -/
theorem head_ranking_mem {best : Stage K} (h : (Batch.ranking window now).head? = some best) :
    ∃ x ∈ window, x.aged now = best := by
  have hmem := (List.perm_insertionSort (Stage.Ahead now) _).subset (List.mem_of_head? h)
  exact List.mem_map.mp hmem

/-- The estimate is that of the winner. -/
theorem output_winner [HasSqrt K] (floor : K)
    (h : 0 < Batch.usable now (Batch.ranking window now)) :
    ∃ best, (Batch.ranking window now).head? = some best ∧
      (Batch.output floor window now).at_ = best.t ∧
      (Batch.output floor window now).offset = best.offset ∧
      (Batch.output floor window now).delay = best.delay := by
  unfold Batch.output
  dsimp only
  generalize Batch.ranking window now = order at *
  cases order with
  | nil => simp [Batch.usable] at h
  | cons best others =>
    refine ⟨best, rfl, ?_⟩
    dsimp only
    rw [if_neg h.ne']
    exact ⟨rfl, rfl, rfl⟩

/-! ## The register and the samples -/

/-- The register holds the latest samples, aged to the last call. -/
structure Filter.Keeps (f : Filter K) (samples : List (Stage K)) : Prop where
  ring : Ring.Holds filterStages (samples.map (·.aged f.update)) f.stages
    (if f.stages.length < filterStages then 0 else f.next)
  filling : f.stages.length < filterStages → f.next = f.stages.length
  last : ∀ s, samples.getLast? = some s → s.t = f.update
  increasing : samples.Pairwise fun a b => a.t < b.t

theorem keeps_new (precision : K) : (Filter.new precision).Keeps [] :=
  ⟨Ring.holds_nil (by decide), fun _ => rfl, by simp, List.Pairwise.nil⟩

theorem Filter.Keeps.reset {f : Filter K} : f.reset.Keeps [] := keeps_new f.floor

theorem Stage.capped_eq (s : Stage K) :
    s.capped = { s with disp := min maxDispersion s.disp } := by
  unfold Stage.capped
  split
  case isTrue h => rw [min_eq_left h]
  case isFalse h => rw [min_eq_right (not_le.mp h).le]

/-- The new sample has not aged. -/
theorem capped_new (s : Stage K) : s.capped = s.aged s.t := by
  rw [Stage.capped_eq, Stage.aged, sub_self, mul_zero, add_zero]

/-- Aging in two steps, with a clamp after each, is aging at once. -/
theorem capped_aged [IsStrictOrderedRing K] (s : Stage K) {t now : K} (hle : t ≤ now) :
    Stage.capped { s.aged t with disp := (s.aged t).disp + phi * (now - t) } = s.aged now := by
  have hmore : 0 ≤ phi * (now - t) := mul_nonneg (by norm_num [phi]) (sub_nonneg.mpr hle)
  rw [Stage.capped_eq]
  unfold Stage.aged
  congr 1
  rcases le_total maxDispersion (s.disp + phi * (t - s.t)) with hcap | hcap
  · rw [min_eq_left hcap, min_eq_left (by linarith), min_eq_left (by linarith)]
  · rw [min_eq_right hcap]
    congr 1
    ring

/-- The register after a call: the stages that were there aged and clamped, and the new one
at the end or in the place of the oldest. -/
theorem shift_capped (f : Filter K) (offset delay disp now : K)
    (hlater : f.stages ≠ [] → f.update < now) :
    (f.shift offset delay disp now).map Stage.capped =
      if f.stages.length < filterStages then
        f.stages.map (fun s => Stage.capped { s with disp := s.disp + phi * (now - f.update) }) ++
          [Stage.capped ⟨offset, delay, disp, now⟩]
      else
        (f.stages.map fun s => Stage.capped { s with disp := s.disp + phi * (now - f.update) }).set
          f.next (Stage.capped ⟨offset, delay, disp, now⟩) := by
  have haged : (if f.stages ≠ [] ∧ f.update < now then
      f.stages.map fun s : Stage K => { s with disp := s.disp + phi * (now - f.update) }
      else f.stages) =
      f.stages.map fun s : Stage K => { s with disp := s.disp + phi * (now - f.update) } := by
    by_cases hnil : f.stages = []
    · simp [hnil]
    · rw [if_pos ⟨hnil, hlater hnil⟩]
  unfold Filter.shift
  dsimp only
  rw [haged, List.length_map]
  split
  · rw [List.map_append, List.map_map, List.map_singleton]
    rfl
  · rw [List.map_set, List.map_map]
    rfl

/-- The ranking of the register is the ranking of the latest samples. -/
theorem Filter.Keeps.ranking {f : Filter K} {samples : List (Stage K)} (h : f.Keeps samples) :
    f.stages.insertionSort (Stage.Ahead f.update) =
      Batch.ranking (latest filterStages samples) f.update := by
  have hperm := h.ring.perm
  rw [Ring.latest_map] at hperm
  refine insertionSort_ahead_eq hperm ?_
  have htimes : ((latest filterStages samples).map (·.aged f.update)).map Stage.t =
      (latest filterStages samples).map Stage.t := by
    rw [List.map_map]
    rfl
  rw [htimes]
  have hsorted := h.increasing.sublist (Ring.latest_sublist filterStages samples)
  exact List.pairwise_map.mpr (hsorted.imp fun hlt => hlt.ne)

section

variable [HasSqrt K]

/-- The register after `Add`. -/
theorem add_register (f : Filter K) (offset delay disp now : K) :
    (f.add offset delay disp now).1.stages = (f.shift offset delay disp now).map Stage.capped ∧
      (f.add offset delay disp now).1.next = (f.next + 1) % filterStages ∧
      (f.add offset delay disp now).1.update = now := by
  unfold Filter.add
  dsimp only
  split
  · exact ⟨rfl, rfl, rfl⟩
  · split_ifs <;> exact ⟨rfl, rfl, rfl⟩

variable [IsStrictOrderedRing K] {f : Filter K} {samples : List (Stage K)}

/-- **The register.**  An `Add` at a later time keeps the latest samples, aged to that time. -/
theorem Filter.Keeps.add (h : f.Keeps samples) (offset delay disp : K) {now : K}
    (hlater : ∀ s ∈ samples, s.t < now) :
    (f.add offset delay disp now).1.Keeps (samples ++ [⟨offset, delay, disp, now⟩]) := by
  obtain ⟨hstages, hnext, hupdate⟩ := add_register f offset delay disp now
  have hlen := h.ring.length
  rw [List.length_map] at hlen
  -- the samples that were there, aged and clamped in place
  have hnow : samples ≠ [] → f.update < now := by
    intro hne
    rw [← h.last _ (List.getLast?_eq_some_getLast hne)]
    exact hlater _ (List.getLast_mem hne)
  have hring := h.ring.map fun s => Stage.capped { s with disp := s.disp + phi * (now - f.update) }
  have haged : (samples.map (·.aged f.update)).map
      (fun s => Stage.capped { s with disp := s.disp + phi * (now - f.update) }) =
      samples.map (·.aged now) := by
    rw [List.map_map]
    refine List.map_congr_left fun s hs => ?_
    exact capped_aged s (hnow (List.ne_nil_of_mem hs)).le
  rw [haged] at hring
  rw [shift_capped f offset delay disp now fun hne => hnow fun hnil => hne (by
    rw [← List.length_eq_zero_iff, hlen, hnil, List.length_nil, Nat.min_zero]),
      capped_new] at hstages
  have hmap : (samples ++ [(⟨offset, delay, disp, now⟩ : Stage K)]).map (·.aged now) =
      samples.map (·.aged now) ++ [Stage.aged ⟨offset, delay, disp, now⟩ now] := by
    rw [List.map_append, List.map_singleton]
  have hlast : ∀ s, (samples ++ [(⟨offset, delay, disp, now⟩ : Stage K)]).getLast? = some s →
      s.t = now := by
    intro s hs
    rw [List.getLast?_concat, Option.some.injEq] at hs
    rw [← hs]
  have hincreasing : (samples ++ [(⟨offset, delay, disp, now⟩ : Stage K)]).Pairwise
      fun a b => a.t < b.t := by
    refine List.pairwise_append.mpr ⟨h.increasing, List.pairwise_singleton _ _, ?_⟩
    intro a ha b hb
    rw [List.mem_singleton.mp hb]
    exact hlater a ha
  by_cases hroom : f.stages.length < filterStages
  · rw [if_pos hroom] at hstages hring
    have hnew := hring.append (by rwa [List.length_map]) (Stage.aged ⟨offset, delay, disp, now⟩ now)
    have hlength : (f.add offset delay disp now).1.stages.length = f.stages.length + 1 := by
      rw [hstages, List.length_append, List.length_map, List.length_singleton]
    refine ⟨?_, ?_, by rw [hupdate]; exact hlast, hincreasing⟩
    · have hstart : (if (f.add offset delay disp now).1.stages.length < filterStages then 0
          else (f.add offset delay disp now).1.next) = 0 := by
        rw [hlength, hnext, h.filling hroom]
        split
        · rfl
        · have hfull : f.stages.length + 1 = filterStages := by omega
          rw [hfull, Nat.mod_self]
      rw [hstart, hupdate, hmap, hstages]
      exact hnew
    · intro hmore
      rw [hlength] at hmore
      rw [hnext, hlength, h.filling hroom, Nat.mod_eq_of_lt hmore]
  · rw [if_neg hroom] at hstages hring
    have hnew :=
      hring.set (by rw [List.length_map]; omega) (Stage.aged ⟨offset, delay, disp, now⟩ now)
    have hlength : (f.add offset delay disp now).1.stages.length = f.stages.length := by
      rw [hstages, List.length_set, List.length_map]
    refine ⟨?_, fun hless => absurd (hlength ▸ hless) hroom,
      by rw [hupdate]; exact hlast, hincreasing⟩
    rw [hlength, if_neg hroom, hnext, hupdate, hmap, hstages]
    exact hnew

/-- What `Add` returns: the estimate of the batch, which is new when a sample is usable and
the winner is newer than the last one that was. -/
theorem Filter.Keeps.add_eq (h : f.Keeps samples) (offset delay disp : K)
    (hlater : ∀ s ∈ samples, s.t < now) {fresh : Bool}
    (hwindow : window = latest filterStages (samples ++ [⟨offset, delay, disp, now⟩]))
    (hfresh : fresh = (decide (0 < Batch.usable now (Batch.ranking window now)) &&
      (Batch.ranking window now).head?.any fun best => decide (f.epoch < best.t))) :
    (f.add offset delay disp now).2 = (Batch.output f.floor window now, fresh) ∧
      (f.add offset delay disp now).1.epoch =
        if fresh then (Batch.output f.floor window now).at_ else f.epoch := by
  obtain ⟨hstages, -, hupdate⟩ := add_register f offset delay disp now
  have hkeeps : (f.add offset delay disp now).1.Keeps _ := h.add offset delay disp hlater
  have hrank := hkeeps.ranking
  rw [hstages, hupdate, ← hwindow] at hrank
  have husable := usable_ranking window now
  have hle := batch_usable_le now (Batch.ranking window now)
  unfold Filter.add Batch.output
  dsimp only
  rw [hrank]
  generalize Batch.ranking window now = order at *
  cases order with
  | nil => simp [hfresh]
  | cons best others =>
    rw [husable]
    dsimp only
    by_cases hzero : Batch.usable now (best :: others) = 0
    · simp [hfresh, hzero]
    · rw [if_neg hzero, if_neg hzero, estimate_eq f.floor best others hzero hle]
      have hpos : 0 < Batch.usable now (best :: others) := Nat.pos_of_ne_zero hzero
      by_cases hold : best.t ≤ f.epoch
      · simp [hfresh, hpos, hold]
      · simp [hfresh, hpos, hold, not_le.mp hold]

/-- A new estimate is that of one of the latest samples. -/
theorem Filter.Keeps.add_winner (h : f.Keeps samples) (offset delay disp : K)
    (hlater : ∀ s ∈ samples, s.t < now) (hnew : (f.add offset delay disp now).2.2 = true) :
    ∃ x ∈ latest filterStages (samples ++ [⟨offset, delay, disp, now⟩]),
      (f.add offset delay disp now).2.1.at_ = x.t ∧
      (f.add offset delay disp now).2.1.offset = x.offset ∧
      (f.add offset delay disp now).2.1.delay = x.delay := by
  have hadd := (h.add_eq offset delay disp hlater rfl rfl).1
  generalize latest filterStages (samples ++ [⟨offset, delay, disp, now⟩]) = window at hadd ⊢
  rw [hadd] at hnew ⊢
  rw [Bool.and_eq_true, decide_eq_true_eq] at hnew
  obtain ⟨best, hhead, hout⟩ := output_winner f.floor hnew.1
  obtain ⟨x, hx, rfl⟩ := head_ranking_mem hhead
  exact ⟨x, hx, hout⟩

end

/-! ## Runs -/

/-- A call of the filter. -/
inductive FilterOp (K : Type) where
  | add (offset delay disp now : K)
  | reset

/-- A filter, the samples it was given since the last `Reset`, and the times of the winners it
reported since. -/
structure FilterLog (K : Type) where
  filter : Filter K
  samples : List (Stage K)
  reported : List K

omit [LinearOrder K] in
def FilterLog.new (precision : K) : FilterLog K := ⟨.new precision, [], []⟩

/-- The times are positive and increase, from one `Reset` to the next. -/
def FilterLog.Timely (s : FilterLog K) : FilterOp K → Prop
  | .add _ _ _ now => 0 < now ∧ ∀ x ∈ s.samples, x.t < now
  | .reset => True

instance (s : FilterLog K) : (op : FilterOp K) → Decidable (s.Timely op)
  | .add _ _ _ now => inferInstanceAs (Decidable (0 < now ∧ ∀ x ∈ s.samples, x.t < now))
  | .reset => .isTrue trivial

section

variable [HasSqrt K]

def FilterLog.step (s : FilterLog K) : FilterOp K → Option (FilterLog K)
  | .add offset delay disp now =>
    some
      { filter := (s.filter.add offset delay disp now).1
        samples := s.samples ++ [⟨offset, delay, disp, now⟩]
        reported := if (s.filter.add offset delay disp now).2.2
          then s.reported ++ [(s.filter.add offset delay disp now).2.1.at_] else s.reported }
  | .reset => some ⟨s.filter.reset, [], []⟩

omit [HasSqrt K] in
/-- The register keeps the samples, and the filter remembers the newest winner it reported. -/
structure FilterLog.Sound (precision : K) (s : FilterLog K) : Prop where
  floor : s.filter.floor = precision
  keeps : s.filter.Keeps s.samples
  positive : ∀ x ∈ s.samples, 0 < x.t
  none : s.reported = [] → s.filter.epoch = 0
  newest : s.reported ≠ [] → s.filter.epoch ∈ s.reported ∧ ∀ t ∈ s.reported, t ≤ s.filter.epoch
  /-- A winner is one of the samples. -/
  known : ∀ t ∈ s.reported, ∃ x ∈ s.samples, x.t = t

omit [HasSqrt K] in
theorem sound_new (precision : K) : (FilterLog.new precision).Sound precision :=
  ⟨rfl, keeps_new precision, by simp [FilterLog.new], fun _ => rfl,
    fun h => absurd rfl h, by simp [FilterLog.new]⟩

omit [HasSqrt K] in
/-- A winner that is newer than the newest is newer than all of them. -/
theorem FilterLog.Sound.newer_iff {precision : K} {s : FilterLog K} (h : s.Sound precision) {t : K}
    (ht : 0 < t) : s.filter.epoch < t ↔ ∀ r ∈ s.reported, r < t := by
  rcases eq_or_ne s.reported [] with hnil | hne
  · rw [h.none hnil, hnil]
    simp [ht]
  · obtain ⟨hmem, hmax⟩ := h.newest hne
    exact ⟨fun hlt r hr => (hmax r hr).trans_lt hlt, fun hall => hall _ hmem⟩

variable [IsStrictOrderedRing K]

/-- `Add`, with the winners reported so far in place of the one that the filter remembers. -/
theorem FilterLog.Sound.add_eq {precision : K} {s : FilterLog K} (h : s.Sound precision)
    {offset delay disp now : K} (htimely : s.Timely (.add offset delay disp now))
    (hwindow : window = latest filterStages (s.samples ++ [⟨offset, delay, disp, now⟩])) :
    (s.filter.add offset delay disp now).2 =
        (Batch.output precision window now, Batch.updated s.reported window now) ∧
      (s.filter.add offset delay disp now).1.epoch =
        if Batch.updated s.reported window now then (Batch.output precision window now).at_
        else s.filter.epoch := by
  obtain ⟨hpos, hlater⟩ := htimely
  have hfresh : Batch.updated s.reported window now =
      (decide (0 < Batch.usable now (Batch.ranking window now)) &&
        (Batch.ranking window now).head?.any fun best => decide (s.filter.epoch < best.t)) := by
    unfold Batch.updated
    congr 1
    cases hhead : (Batch.ranking window now).head? with
    | none => rfl
    | some best =>
      -- the winner has a positive time
      obtain ⟨x, hx, rfl⟩ := head_ranking_mem hhead
      have hbest : 0 < (x.aged now).t := by
        rw [hwindow] at hx
        rcases List.mem_append.mp ((Ring.latest_sublist _ _).subset hx) with hold | hnew
        · exact h.positive x hold
        · rw [List.mem_singleton.mp hnew]
          exact hpos
      rw [Option.any_some, Option.any_some, List.all_eq, decide_eq_decide]
      simp only [decide_eq_true_eq]
      exact (h.newer_iff hbest).symm
  have heq := h.keeps.add_eq offset delay disp hlater hwindow hfresh
  rw [h.floor] at heq
  exact heq

/-- One call keeps the filter sound. -/
theorem sound_step {precision : K} (s : FilterLog K) (op : FilterOp K) (t : FilterLog K)
    (h : s.Sound precision) (htimely : s.Timely op) (hstep : s.step op = some t) :
    t.Sound precision := by
  cases op with
  | reset =>
    obtain rfl := Option.some.inj hstep
    exact ⟨h.floor, Filter.Keeps.reset, by simp, fun _ => rfl, fun hne => absurd rfl hne, by simp⟩
  | add offset delay disp now =>
    obtain rfl := Option.some.inj hstep
    obtain ⟨hout, hepoch⟩ := h.add_eq htimely rfl
    generalize hwindow : latest filterStages (s.samples ++ [⟨offset, delay, disp, now⟩]) = window
      at hout hepoch
    have hpositive : ∀ x ∈ s.samples ++ [(⟨offset, delay, disp, now⟩ : Stage K)], 0 < x.t := by
      intro x hx
      rcases List.mem_append.mp hx with hold | hnew
      · exact h.positive x hold
      · rw [List.mem_singleton.mp hnew]
        exact htimely.1
    have hknown : ∀ t ∈ s.reported, ∃ x ∈ s.samples ++ [(⟨offset, delay, disp, now⟩ : Stage K)],
        x.t = t := by
      intro t ht
      obtain ⟨x, hx, hxt⟩ := h.known t ht
      exact ⟨x, List.mem_append_left _ hx, hxt⟩
    have hfloor := (add_floor s.filter offset delay disp now).trans h.floor
    cases hupdated : Batch.updated s.reported window now with
    | false =>
      rw [hupdated, if_neg Bool.false_ne_true] at hepoch
      rw [hupdated] at hout
      have hflag : (s.filter.add offset delay disp now).2.2 = false := congrArg Prod.snd hout
      simp only [hflag, Bool.false_eq_true, if_false]
      exact ⟨hfloor, h.keeps.add offset delay disp htimely.2, hpositive,
        fun hnil => hepoch.trans (h.none hnil),
        fun hne => by rw [hepoch]; exact h.newest hne, hknown⟩
    | true =>
      rw [hupdated, if_pos rfl] at hepoch
      rw [hupdated] at hout
      have hflag : (s.filter.add offset delay disp now).2.2 = true := congrArg Prod.snd hout
      have hat : (s.filter.add offset delay disp now).2.1 = Batch.output precision window now :=
        congrArg Prod.fst hout
      simp only [hflag, if_true, hat]
      -- the winner is newer than what was reported before
      unfold Batch.updated at hupdated
      rw [Bool.and_eq_true, decide_eq_true_eq] at hupdated
      obtain ⟨best, hhead, hbest, -⟩ := output_winner precision hupdated.1
      have hnewer : ∀ t ∈ s.reported, t < best.t := by
        simpa [hhead] using hupdated.2
      rw [hbest] at hepoch ⊢
      refine ⟨hfloor, h.keeps.add offset delay disp htimely.2, hpositive,
        by simp, fun _ => ⟨?_, ?_⟩, ?_⟩
      · rw [hepoch]
        exact List.mem_append_right _ (List.mem_singleton_self _)
      · intro t ht
        rw [hepoch]
        rcases List.mem_append.mp ht with hold | hnew
        · exact (hnewer t hold).le
        · exact (List.mem_singleton.mp hnew).le
      · intro t ht
        rcases List.mem_append.mp ht with hold | hnew
        · exact hknown t hold
        · obtain ⟨x, hx, rfl⟩ := head_ranking_mem hhead
          rw [← hwindow] at hx
          exact ⟨x, (Ring.latest_sublist _ _).subset hx, (List.mem_singleton.mp hnew).symm⟩

/-- **The clock filter is its batch definition.**  In every run of `Add` and `Reset` whose times
are positive and increase, the next `Add` returns the estimate computed at once from the latest
eight samples since the last `Reset`, and says that it is new if and only if a sample is usable
and the winner is newer than every winner reported since. -/
theorem filter_eq_batch (precision : K) (ops : List (FilterOp K)) (s : FilterLog K)
    (htimely : Runs.Along FilterLog.step FilterLog.Timely (FilterLog.new precision) ops)
    (hrun : Runs.run FilterLog.step (FilterLog.new precision) ops = some s)
    (offset delay disp now : K) (hnow : s.Timely (.add offset delay disp now)) :
    (s.filter.add offset delay disp now).2 =
      (Batch.output precision (latest filterStages (s.samples ++ [⟨offset, delay, disp, now⟩])) now,
        Batch.updated s.reported
          (latest filterStages (s.samples ++ [⟨offset, delay, disp, now⟩])) now) := by
  have h : s.Sound precision :=
    Runs.run_invariant sound_step (sound_new precision) htimely hrun
  exact (h.add_eq hnow rfl).1

/-- Two samples, a reset, and two more. -/
def filterRun : List (FilterOp ℚ) :=
  [.add 3 (1 / 10) (1 / 100) 1, .add 4 (1 / 5) (1 / 100) 2, .reset,
    .add 5 (1 / 10) (1 / 100) 3, .add 6 (1 / 5) (1 / 100) 4]

/-- The next sample is the third since the reset. -/
theorem filter_eq_batch_after_reset :
    ∃ s : FilterLog ℚ, Runs.run FilterLog.step (FilterLog.new (1 / 1000)) filterRun = some s ∧
      (s.filter.add 7 (1 / 20) (1 / 100) 5).2 =
        (Batch.output (1 / 1000 : ℚ) [⟨5, 1 / 10, 1 / 100, 3⟩, ⟨6, 1 / 5, 1 / 100, 4⟩,
          ⟨7, 1 / 20, 1 / 100, 5⟩] 5,
          Batch.updated [(3 : ℚ)] [⟨5, 1 / 10, 1 / 100, 3⟩, ⟨6, 1 / 5, 1 / 100, 4⟩,
            ⟨7, 1 / 20, 1 / 100, 5⟩] 5) := by
  obtain ⟨s, hs⟩ : ∃ s, Runs.run FilterLog.step (FilterLog.new (1 / 1000)) filterRun = some s :=
    ⟨_, rfl⟩
  have hreported : s.reported = [3] := by
    have hmap : (Runs.run FilterLog.step (FilterLog.new (1 / 1000)) filterRun).map
        FilterLog.reported = some [3] := by decide +kernel
    rw [hs] at hmap
    exact Option.some.inj hmap
  have hsamples : s.samples = [⟨5, 1 / 10, 1 / 100, 3⟩, ⟨6, 1 / 5, 1 / 100, 4⟩] := by
    obtain rfl := Option.some.inj hs
    rfl
  have hbatch :=
    filter_eq_batch (1 / 1000) filterRun s (by decide +kernel) hs 7 (1 / 20) (1 / 100) 5
    (by rw [FilterLog.Timely, hsamples]; decide +kernel)
  rw [hreported, hsamples] at hbatch
  exact ⟨s, hs, hbatch⟩

/-! ## No starvation -/

omit [Field K] [LinearOrder K] [HasSqrt K] [IsStrictOrderedRing K] in
/-- The call that adds a sample. -/
def Stage.add (x : Stage K) : FilterOp K := .add x.offset x.delay x.disp x.t

/-- Calls none of which brings a new estimate: nothing is reported, and the samples are the
ones that were added. -/
theorem run_quiet {precision : K} {s : FilterLog K} {news : List (Stage K)} (h : s.Sound precision)
    (htimely : Runs.Along FilterLog.step FilterLog.Timely s (news.map Stage.add))
    (hquiet : ∀ pre x post u, news = pre ++ x :: post →
      Runs.run FilterLog.step s (pre.map Stage.add) = some u →
      (u.filter.add x.offset x.delay x.disp x.t).2.2 = false) :
    ∃ t, Runs.run FilterLog.step s (news.map Stage.add) = some t ∧ t.Sound precision ∧
      t.samples = s.samples ++ news ∧ t.reported = s.reported := by
  induction news generalizing s with
  | nil => exact ⟨s, rfl, h, (List.append_nil _).symm, rfl⟩
  | cons y news ih =>
    obtain ⟨hnow, hrest⟩ := htimely
    have hflag := hquiet [] y news s rfl rfl
    obtain ⟨t, ht⟩ : ∃ t, s.step y.add = some t := ⟨_, rfl⟩
    have hsamples : t.samples = s.samples ++ [y] := by
      obtain rfl := Option.some.inj ht
      rfl
    have hreported : t.reported = s.reported := by
      obtain rfl := Option.some.inj ht
      simp [hflag]
    obtain ⟨u, hu, hsound, hus, hur⟩ := ih (sound_step s _ t h hnow ht) (hrest t ht) (by
      intro pre x post v hsplit hv
      refine hquiet (y :: pre) x post v (by rw [hsplit, List.cons_append]) ?_
      rw [List.map_cons]
      exact Runs.run_cons_eq_some.mpr ⟨t, ht, hv⟩)
    refine ⟨u, Runs.run_cons_eq_some.mpr ⟨t, ht, hu⟩, hsound, ?_, hur.trans hreported⟩
    rw [hus, hsamples, List.append_assoc, List.singleton_append]

omit [HasSqrt K] in
/-- A new sample that carries information makes the register usable. -/
theorem usable_pos {x : Stage K} (hmem : x ∈ window) (hdisp : x.disp < maxDispersion)
    (hdist : x.delay / 2 + x.disp < maxDispersion) :
    0 < Batch.usable x.t (Batch.ranking window x.t) := by
  have haged : (x.aged x.t).rank x.t < maxDispersion := by
    have hsame : x.aged x.t = x := by
      rw [← capped_new, Stage.capped, if_neg (not_le.mpr hdisp)]
    rw [hsame, Stage.rank, if_neg (not_le.mpr hdisp), sub_self,
      if_neg (by norm_num [allanIntercept])]
    exact hdist
  have hin : x.aged x.t ∈ Batch.ranking window x.t :=
    (List.perm_insertionSort _ _).symm.subset (List.mem_map_of_mem hmem)
  have hcount : 0 < (Batch.ranking window x.t).countP
      fun s => decide (s.rank x.t < maxDispersion) :=
    List.countP_pos_iff.mpr ⟨_, hin, by simpa using haged⟩
  unfold Batch.usable
  omega

/-- **The clock filter never starves.**  Among any eight `Add` calls in a row, in any run whose
times are positive and increase, one brings a new estimate, if every sample comes with a
dispersion and with a distance below `MaxDispersion`. -/
theorem filter_never_starves (precision : K) (ops : List (FilterOp K)) (s : FilterLog K)
    (htimely : Runs.Along FilterLog.step FilterLog.Timely (FilterLog.new precision) ops)
    (hrun : Runs.run FilterLog.step (FilterLog.new precision) ops = some s)
    (news : List (Stage K)) (hlen : news.length = 8)
    (hnews : Runs.Along FilterLog.step FilterLog.Timely s (news.map Stage.add))
    (hgood : ∀ x ∈ news, x.delay / 2 + x.disp < maxDispersion ∧ x.disp < maxDispersion) :
    ∃ pre x post u, news = pre ++ x :: post ∧
      Runs.run FilterLog.step s (pre.map Stage.add) = some u ∧
      (u.filter.add x.offset x.delay x.disp x.t).2.2 = true := by
  have h : s.Sound precision :=
    Runs.run_invariant sound_step (sound_new precision) htimely hrun
  by_contra hnone
  have hquiet : ∀ pre x post u, news = pre ++ x :: post →
      Runs.run FilterLog.step s (pre.map Stage.add) = some u →
      (u.filter.add x.offset x.delay x.disp x.t).2.2 = false := by
    intro pre x post u hsplit hu
    by_contra hflag
    exact hnone ⟨pre, x, post, u, hsplit, hu, by simpa using hflag⟩
  obtain ⟨init, x, rfl⟩ : ∃ init x, news = init ++ [x] := by
    have hne : news ≠ [] := by
      intro hnil
      rw [hnil, List.length_nil] at hlen
      exact absurd hlen (by decide)
    exact ⟨_, _, (List.dropLast_append_getLast hne).symm⟩
  rw [List.map_append, Runs.along_append] at hnews
  obtain ⟨u, hu, hsound, hsamples, hreported⟩ := run_quiet h hnews.1 (by
    intro pre y post v hsplit hv
    exact hquiet pre y (post ++ [x]) v (by rw [hsplit, List.append_assoc, List.cons_append]) hv)
  have htime : u.Timely x.add := (hnews.2 u hu).1
  -- by then the register holds the eight samples, all of them newer than what was reported
  have hlast := hquiet init x [] u rfl hu
  rw [(hsound.add_eq htime rfl).1, hsamples, List.append_assoc] at hlast
  have hwindow : latest filterStages (s.samples ++ (init ++ [x])) = init ++ [x] :=
    Ring.latest_append_of_length _ hlen
  have hx : x ∈ init ++ [x] := List.mem_append_right _ (List.mem_singleton_self x)
  have husable := usable_pos hx (hgood x hx).2 (hgood x hx).1
  change Batch.updated u.reported (latest filterStages (s.samples ++ (init ++ [x]))) x.t =
    false at hlast
  rw [hwindow, hreported, Batch.updated, decide_eq_true husable, Bool.true_and] at hlast
  obtain ⟨best, hhead, -⟩ := output_winner precision husable
  obtain ⟨y, hy, rfl⟩ := head_ranking_mem hhead
  rw [hhead, Option.any_some, List.all_eq_false] at hlast
  obtain ⟨t, ht, hold⟩ := hlast
  refine hold (decide_eq_true ?_)
  obtain ⟨z, hz, hzt⟩ := h.known t ht
  rw [← hzt]
  have hkeeps : (u.filter.add x.offset x.delay x.disp x.t).1.Keeps (u.samples ++ [x]) :=
    hsound.keeps.add x.offset x.delay x.disp htime.2
  have hincreasing := hkeeps.increasing
  rw [hsamples, List.append_assoc] at hincreasing
  exact (List.pairwise_append.mp hincreasing).2.2 z hz y hy

end

/-- Eight samples that cross a network slower and slower. -/
def slowingSamples : List (Stage ℚ) :=
  (List.range 8).map fun i => ⟨0, i + 1, 1 / 100, i + 2⟩

/-- A fast sample first, and then eight slower ones. -/
theorem filter_never_starves_slowing :
    ∃ s : FilterLog ℚ, Runs.run FilterLog.step (FilterLog.new (1 / 1000))
        [.add 0 (1 / 10) (1 / 100) 1] = some s ∧
      ∃ pre x post u, slowingSamples = pre ++ x :: post ∧
        Runs.run FilterLog.step s (pre.map Stage.add) = some u ∧
        (u.filter.add x.offset x.delay x.disp x.t).2.2 = true := by
  obtain ⟨s, hs⟩ : ∃ s, Runs.run FilterLog.step (FilterLog.new (1 / 1000 : ℚ))
      [.add 0 (1 / 10) (1 / 100) 1] = some s := ⟨_, rfl⟩
  have hall : Runs.Along FilterLog.step FilterLog.Timely (FilterLog.new (1 / 1000 : ℚ))
      ([.add 0 (1 / 10) (1 / 100) 1] ++ slowingSamples.map Stage.add) := by
    decide +kernel
  obtain ⟨hfirst, hrest⟩ := Runs.along_append.mp hall
  exact ⟨s, hs, filter_never_starves (1 / 1000) _ s hfirst hs slowingSamples rfl (hrest s hs)
    (by decide +kernel)⟩

/-- Eight samples with a dispersion of 20 s and a delay of -10 s: half the delay and the
dispersion are 15 s. -/
def negativeSamples : List (Stage ℚ) :=
  (List.range 8).map fun i => ⟨0, -10, 20, i + 1⟩

/-- A dispersion beyond `MaxDispersion` carries no information, whatever the delay, and no
`Add` brings an estimate. -/
theorem filter_starves_on_negative_delays :
    Runs.Along FilterLog.step FilterLog.Timely (FilterLog.new (1 / 1000 : ℚ))
        (negativeSamples.map Stage.add) ∧
      (∀ x ∈ negativeSamples, x.delay / 2 + x.disp < maxDispersion) ∧
      ∀ n < 8, ∃ x ∈ negativeSamples[n]?,
        ((Runs.run FilterLog.step (FilterLog.new (1 / 1000 : ℚ))
          ((negativeSamples.take n).map Stage.add)).map fun u =>
            (u.filter.add x.offset x.delay x.disp x.t).2.2) = some false := by
  decide +kernel

end Carillon.Discipline
