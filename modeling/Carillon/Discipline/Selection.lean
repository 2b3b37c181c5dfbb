/-
# The outcome of a selection

`SelectAt` writes a source's role several times: as a candidate, in the intersection,
in clustering, in the PPS comparison and when the system source is chosen.  Here its
phases get names, each with the facts the next one needs, and two results are put
together from them:

* `selection_consistent`: the final roles agree with the lists that are returned;
* `selection_noninterference`: a source that ends up unfit, unqualified or contradicted
  has no influence on the outcome.

The code identifies a source by its pointer and the model by its name, so both results
are about lists in which no name occurs twice, as the map of a `System` guarantees.
-/
import Carillon.Discipline.Intersection

namespace Carillon.Discipline

open HasSqrt (sqrt)

variable {K : Type}

/-- The list registers each source once. -/
def Distinct (l : List (SourceState K)) : Prop := (l.map (·.name)).Nodup

/-! ## Writing back by name -/

/-- Writing back keeps the names. -/
theorem writeBack_names (decided all : List (SourceState K)) :
    (writeBack decided all).map (·.name) = all.map (·.name) := by
  unfold writeBack
  rw [List.map_map]
  apply List.map_congr_left
  intro s _
  show ((decided.find? (·.name = s.name)).getD s).name = s.name
  cases h : decided.find? (·.name = s.name) with
  | none => rfl
  | some d => simpa using List.find?_some h

/-- With distinct names, what has been decided about a source is what is written back. -/
theorem mem_writeBack_of_decided {decided all : List (SourceState K)} (h : Distinct decided)
    {d : SourceState K} (hd : d ∈ decided) (hname : d.name ∈ all.map (·.name)) :
    d ∈ writeBack decided all := by
  obtain ⟨s, hs, hsd⟩ := List.mem_map.mp hname
  refine List.mem_map.mpr ⟨s, hs, ?_⟩
  have hfind : decided.find? (·.name = s.name) = some d := by
    cases hfound : decided.find? (·.name = s.name) with
    | none =>
      have := List.find?_eq_none.mp hfound d hd
      simp [hsd] at this
    | some e =>
      have he : e.name = s.name := by simpa using List.find?_some hfound
      exact congrArg some
        (List.inj_on_of_nodup_map h (List.mem_of_find?_eq_some hfound) hd (he.trans hsd))
  rw [hfind]
  rfl

variable {t : SourceState K}

/-- Each source is a decided one, or was not decided. -/
theorem mem_writeBack {decided all : List (SourceState K)} (h : t ∈ writeBack decided all) :
    t ∈ decided ∨ t ∈ all ∧ t.name ∉ decided.map (·.name) := by
  obtain ⟨s, hs, rfl⟩ := List.mem_map.mp h
  cases hfound : decided.find? (·.name = s.name) with
  | none =>
    right
    refine ⟨hs, fun hname => ?_⟩
    obtain ⟨d, hd, hds⟩ := List.mem_map.mp hname
    have := List.find?_eq_none.mp hfound d hd
    exact this (by simpa using hds)
  | some d => exact .inl (List.mem_of_find?_eq_some hfound)

/-! ## Fitness -/

/-- A source that a selection at `now` may use. -/
structure SourceState.Fit [Field K] [LinearOrder K] (s : SourceState K) (now : K)
    (o : SelectOptions K) : Prop where
  reachable : s.reach ≠ 0
  selectable : s.noSelect = false
  fresh : now - s.updated ≤ freshnessDeadline s.poll
  valid : s.valid = true
  synchronised : s.leap ≠ .unsync
  stratum : s.stratum < 16
  near : s.rootDistance now < maxDistance
  independent : timingLoop s o.localRefIDs = false

/-- The roles of a source that is not fit. -/
def SelectStatus.unfit : SelectStatus → Bool
  | .unreachable | .noSelect | .invalid => true
  | .unqualified | .falseticker | .outlier | .survivor | .system => false

variable {s : SourceState K}

section Examine

variable [Field K] [LinearOrder K]

theorem candidate_unfit_status {st : SelectStatus} (h : s.candidate = some st) :
    st.unfit = true := by
  unfold SourceState.candidate at h
  split_ifs at h <;> cases h <;> rfl

/-- A source brought up to the instant of the selection, before the fitness test. -/
def SourceState.carried (s : SourceState K) (now : K) (o : SelectOptions K) : SourceState K :=
  { s with
    distance := s.rootDistance now
    stale := s.valid && decide (freshnessDeadline s.poll < now - s.updated)
    current := if s.valid then s.offset - o.appliedSince s.at_ now else s.offset
    disagreesWith := if s.pps then none else s.disagreesWith
    disagreement := if s.pps then 0 else s.disagreement }

/-- The examination as one choice. -/
theorem examine_eq (s : SourceState K) (now : K) (o : SelectOptions K) :
    s.examine now o =
      if (s.carried now o).candidate.isNone && timingLoop (s.carried now o) o.localRefIDs then
        { source := { s.carried now o with inLoop := true, status := .invalid }
          usable := false
          events := if s.inLoop then [] else [.timingLoop s.name] }
      else
        { source := { s.carried now o with
            inLoop := false
            status := (s.carried now o).candidate.getD (if s.pps then .unqualified else .survivor) }
          usable := (s.carried now o).candidate.isNone
          events := if s.inLoop then [.timingLoopCleared s.name] else [] } := rfl

@[simp] theorem examine_name (s : SourceState K) (now : K) (o : SelectOptions K) :
    (s.examine now o).source.name = s.name := by
  rw [examine_eq]
  split <;> rfl

@[simp] theorem examine_sinceStep (s : SourceState K) (now : K) (o : SelectOptions K) :
    (s.examine now o).source.sinceStep = s.sinceStep := by
  rw [examine_eq]
  split <;> rfl

/-- A source that passes the fitness test and follows nobody on this host is fit. -/
theorem carried_fit {now : K} {o : SelectOptions K} (hcand : (s.carried now o).candidate = none)
    (hloop : timingLoop (s.carried now o) o.localRefIDs = false) : (s.carried now o).Fit now o := by
  unfold SourceState.candidate at hcand
  split_ifs at hcand with hreach hselect hstale hinvalid
  simp only [Bool.or_eq_true, Bool.not_eq_true', decide_eq_true_eq, not_or, not_le] at hinvalid
  obtain ⟨⟨⟨hvalid, hleap⟩, hstratum⟩, hdist⟩ := hinvalid
  have hvalid : (s.carried now o).valid = true := by simpa using hvalid
  have hfresh : now - s.updated ≤ freshnessDeadline s.poll := by
    have hvalid' : s.valid = true := hvalid
    simpa [SourceState.carried, hvalid'] using hstale
  exact ⟨hreach, by simpa using hselect, hfresh, hvalid, hleap, hstratum, hdist, hloop⟩

/-- **The first loop** keeps the fit sources, under a role that later phases may change,
and writes the final role of the others. -/
theorem examine_cases (s : SourceState K) (now : K) (o : SelectOptions K) :
    ((s.examine now o).usable = true ∧ (s.examine now o).source.Fit now o ∧
      (s.examine now o).source.status
        = if (s.examine now o).source.pps then .unqualified else .survivor) ∨
    ((s.examine now o).usable = false ∧ (s.examine now o).source.status.unfit = true) := by
  rw [examine_eq]
  split
  · exact .inr ⟨rfl, rfl⟩
  case isFalse hloop =>
    dsimp only
    cases hcand : (s.carried now o).candidate with
    | some st => exact .inr ⟨rfl, candidate_unfit_status hcand⟩
    | none =>
      have hloop : timingLoop (s.carried now o) o.localRefIDs = false := by
        simpa [hcand] using hloop
      have hfit := carried_fit hcand hloop
      exact .inl ⟨rfl, ⟨hfit.1, hfit.2, hfit.3, hfit.4, hfit.5, hfit.6, hfit.7, hfit.8⟩, rfl⟩

end Examine

/-! ## What the later phases do not write -/

variable [Field K]

/-- A source without what the phases after the first loop write into it. -/
def SourceState.bare (s : SourceState K) : SourceState K :=
  { s with status := .unreachable, everSurvived := false, disagreesWith := none, disagreement := 0 }

variable [LinearOrder K]

theorem SourceState.Fit.of_bare {s t : SourceState K} {now : K} {o : SelectOptions K}
    (h : s.Fit now o) (hbare : t.bare = s.bare) : t.Fit now o := by
  have hs : s.bare.Fit now o := ⟨h.1, h.2, h.3, h.4, h.5, h.6, h.7, h.8⟩
  rw [← hbare] at hs
  exact ⟨hs.1, hs.2, hs.3, hs.4, hs.5, hs.6, hs.7, hs.8⟩

omit [Field K] [LinearOrder K] in
/-- A source in another role. -/
def SourceState.mark (st : SelectStatus) (s : SourceState K) : SourceState K :=
  { s with status := st }

omit [LinearOrder K] in
@[simp] theorem map_bare_mark (l : List (SourceState K)) (st : SelectStatus) :
    (l.map (SourceState.mark st)).map SourceState.bare = l.map SourceState.bare := by
  rw [List.map_map]
  rfl

/-- The falsetickers are the other sources, marked. -/
theorem intersect_cases (c : List (SourceState K)) :
    ∃ p : SourceState K → Bool,
      intersect c = (c.filter p, (c.filter (!p ·)).map (SourceState.mark .falseticker)) := by
  unfold intersect
  split
  · refine ⟨fun _ => false, ?_⟩
    simp only [List.filter_false, Bool.not_false, List.filter_true]
    rfl
  · rename_i i _
    exact ⟨(·.overlaps i), rfl⟩

/-- The intersection only splits the candidates. -/
theorem bare_intersect (c : List (SourceState K)) :
    (((intersect c).1 ++ (intersect c).2).map SourceState.bare).Perm (c.map SourceState.bare) := by
  obtain ⟨p, hp⟩ := intersect_cases c
  rw [hp, List.map_append, map_bare_mark, ← List.map_append]
  exact (List.filter_append_perm p c).map _

variable [HasSqrt K]

theorem clusterRounds_sublist (fuel : ℕ) (c : List (SourceState K)) :
    (clusterRounds fuel c).1.Sublist c := by
  induction fuel generalizing c with
  | zero => exact List.Sublist.refl c
  | succ fuel ih =>
    unfold clusterRounds
    split
    · exact List.Sublist.refl c
    · split
      · split
        · exact List.Sublist.refl c
        · exact (ih _).trans (List.eraseIdx_sublist c _)
      · exact List.Sublist.refl c

/-- The clustering only splits the survivors. -/
theorem bare_clusterRounds (fuel : ℕ) (c : List (SourceState K)) :
    (((clusterRounds fuel c).1 ++ (clusterRounds fuel c).2).map SourceState.bare).Perm
      (c.map SourceState.bare) := by
  induction fuel generalizing c with
  | zero => simp [clusterRounds]
  | succ fuel ih =>
    unfold clusterRounds
    split
    · simp
    · split
      · split
        · simp
        · rename_i i _ _ _ _ _
          -- the discarded survivor and the others are the list the round started from
          have hround : (((c)[i]?.map (SourceState.mark .outlier)).toList.map SourceState.bare ++
              (c.eraseIdx i).map SourceState.bare).Perm (c.map SourceState.bare) := by
            by_cases hi : i < c.length
            · rw [List.getElem?_eq_getElem hi]
              exact (List.getElem_cons_eraseIdx_perm hi).map SourceState.bare
            · have hi : c.length ≤ i := not_lt.mp hi
              rw [List.getElem?_eq_none hi, List.eraseIdx_of_length_le hi]
              simp
          refine List.Perm.trans ?_ hround
          rw [List.map_append, List.map_append]
          refine (List.perm_append_comm_assoc _ _ _).trans ?_
          rw [← List.map_append]
          exact (ih (c.eraseIdx i)).append_left _
      · simp

/-- An outlier is marked as one. -/
theorem clusterRounds_outlier (fuel : ℕ) (c : List (SourceState K)) :
    ∀ t ∈ (clusterRounds fuel c).2, t.status = .outlier := by
  induction fuel generalizing c with
  | zero => simp [clusterRounds]
  | succ fuel ih =>
    unfold clusterRounds
    split
    · simp
    · split
      · split
        · simp
        · rename_i i _ _ _ _ _
          intro t ht
          rcases List.mem_append.mp ht with ht | ht
          · rw [Option.mem_toList, Option.map_eq_some_iff] at ht
            obtain ⟨s, -, rfl⟩ := ht
            rfl
          · exact ih _ t ht
      · simp

/-! ## The phases -/

section Phases

variable (sources : List (SourceState K)) (now : K) (n : ℤ) (o : SelectOptions K)

/-- The sources as the first loop of `SelectAt` leaves them. -/
def examinedSources : List (SourceState K) := (sources.map (·.examine now o)).map (·.source)

/-- Those of them that are fit. -/
def usableSources : List (SourceState K) :=
  ((sources.map (·.examine now o)).filter (·.usable)).map (·.source)

/-- The fit sources that are not PPS: `cands`. -/
def candidates : List (SourceState K) := (usableSources sources now o).filter (!·.pps)

/-- The candidates that pass intersection and clustering. -/
def clustered : List (SourceState K) := (cluster (intersect (candidates sources now o)).1).1

/-- The survivors that may number the seconds of a PPS source. -/
def numberingSources : List (SourceState K) :=
  (clustered sources now o).filter fun s => s.numbering && decide (|s.current| < ppsGuard)

/-- The fit PPS sources after their comparison; none is compared without a numbering
source. -/
def judgedPPS : List (SourceState K) :=
  if (numberingSources sources now o).isEmpty then []
  else ((usableSources sources now o).filter (·.pps)).map
    (·.qualify (numberingSources sources now o) now)

/-- The survivors in their order, before one of them becomes the system source. -/
def rankedSurvivors : List (SourceState K) :=
  ((clustered sources now o ++ (judgedPPS sources now o).filter
    (·.status = .survivor)).insertionSort
    (fun a b => a.synch ≤ b.synch)).map ({ · with status := .survivor, everSurvived := true })

/-- The fit sources that a phase rejects, marked. -/
def rejectedSources : List (SourceState K) :=
  (intersect (candidates sources now o)).2 ++
    (cluster (intersect (candidates sources now o)).1).2 ++
    (judgedPPS sources now o).filter (·.status ≠ .survivor)

/-- The system source, marked, if enough sources survive. -/
def chosenSystem : Option (SourceState K) :=
  (if ((rankedSurvivors sources now o).length : ℤ) < n then none
    else systemSource (rankedSurvivors sources now o)).map (SourceState.mark .system)

/-- The survivors with the system source among them. -/
def finalSurvivors : List (SourceState K) :=
  writeBack (chosenSystem sources now n o).toList (rankedSurvivors sources now o)

omit [LinearOrder K] [HasSqrt K] [Field K] in
theorem writeBack_nil (l : List (SourceState K)) : writeBack [] l = l := by
  simp [writeBack]

/-- The selection before a system source is chosen. -/
def unselected : Selection K where
  survivors := rankedSurvivors sources now o
  system := none
  offset := 0
  jitter := 0
  preferLost := (examinedSources sources now o).any (fun s => s.prefer && !s.noSelect) &&
    ((examinedSources sources now o).any (·.everSurvived) ||
      !(rankedSurvivors sources now o).isEmpty)
  ppsQualified := !(numberingSources sources now o).isEmpty
  low := (lowHigh (candidates sources now o)).1
  high := (lowHigh (candidates sources now o)).2
  events := (sources.map (·.examine now o)).flatMap (·.events)

/-- The selection in its phases. -/
theorem selectAt_eq :
    selectAt sources now n o =
      match if ((rankedSurvivors sources now o).length : ℤ) < n then none
        else systemSource (rankedSurvivors sources now o) with
      | none =>
        (writeBack (rejectedSources sources now o ++ rankedSurvivors sources now o)
          (examinedSources sources now o), unselected sources now o)
      | some sys =>
        let survivors := writeBack [sys.mark .system] (rankedSurvivors sources now o)
        let offset := combinedOffset survivors (sys.mark .system)
        (writeBack (rejectedSources sources now o ++ survivors) (examinedSources sources now o),
          { unselected sources now o with
            survivors := survivors
            system := some (sys.mark .system)
            offset := offset
            jitter := combinedJitter survivors (sys.mark .system) offset
            preferLost := (unselected sources now o).preferLost && !survivors.any (·.prefer) }) :=
              rfl

/-- **`SelectAt` by its phases.** -/
theorem selectAt_fields :
    (selectAt sources now n o).1 =
      writeBack (rejectedSources sources now o ++ finalSurvivors sources now n o)
      (examinedSources sources now o) ∧
    (selectAt sources now n o).2.survivors = finalSurvivors sources now n o ∧
    (selectAt sources now n o).2.system = chosenSystem sources now n o ∧
    (selectAt sources now n o).2.offset
      = (chosenSystem sources now n o).elim 0 (combinedOffset (finalSurvivors sources now n o)) ∧
    (selectAt sources now n o).2.jitter = (chosenSystem sources now n o).elim 0 (fun sys =>
      combinedJitter (finalSurvivors sources now n o) sys
        (combinedOffset (finalSurvivors sources now n o) sys)) ∧
    (selectAt sources now n o).2.ppsQualified = !(numberingSources sources now o).isEmpty ∧
    (selectAt sources now n o).2.low = (lowHigh (candidates sources now o)).1 ∧
    (selectAt sources now n o).2.high = (lowHigh (candidates sources now o)).2 := by
  rw [selectAt_eq]
  unfold finalSurvivors chosenSystem
  generalize (if ((rankedSurvivors sources now o).length : ℤ) < n then none
    else systemSource (rankedSurvivors sources now o)) = pick
  cases pick with
  | none =>
    rw [Option.map_none, Option.toList_none, writeBack_nil]
    exact ⟨rfl, rfl, rfl, rfl, rfl, rfl, rfl, rfl⟩
  | some sys => exact ⟨rfl, rfl, rfl, rfl, rfl, rfl, rfl, rfl⟩

/-! ## Who is decided about -/

omit [HasSqrt K] in
theorem usable_sublist : (usableSources sources now o).Sublist (examinedSources sources now o) :=
  List.filter_sublist.map _

omit [HasSqrt K] in
theorem examined_names : (examinedSources sources now o).map (·.name) = sources.map (·.name) := by
  unfold examinedSources
  rw [List.map_map, List.map_map]
  exact List.map_congr_left fun s _ => examine_name s now o

theorem clustered_sublist : (clustered sources now o).Sublist (candidates sources now o) := by
  refine (clusterRounds_sublist _ _).trans ?_
  obtain ⟨p, hp⟩ := intersect_cases (candidates sources now o)
  rw [hp]
  exact List.filter_sublist

theorem bare_judged : ((judgedPPS sources now o).map SourceState.bare).Sublist
    (((usableSources sources now o).filter (·.pps)).map SourceState.bare) := by
  unfold judgedPPS
  split
  · exact List.nil_sublist _
  · rw [List.map_map]
    exact List.Sublist.refl _

theorem bare_ranked : ((rankedSurvivors sources now o).map SourceState.bare).Perm
    ((clustered sources now o).map SourceState.bare ++
      ((judgedPPS sources now o).filter (·.status = .survivor)).map SourceState.bare) := by
  unfold rankedSurvivors
  rw [List.map_map, ← List.map_append]
  exact (List.perm_insertionSort _ _).map SourceState.bare

/-- Every candidate and every judged PPS source is decided about once. -/
theorem bare_decided :
    ((rejectedSources sources now o ++ rankedSurvivors sources now o).map SourceState.bare).Perm
      ((candidates sources now o ++ judgedPPS sources now o).map SourceState.bare) := by
  have hintersect := bare_intersect (candidates sources now o)
  have hcluster := bare_clusterRounds (intersect (candidates sources now o)).1.length
    (intersect (candidates sources now o)).1
  have hjudged :=
    (List.filter_append_perm (·.status = .survivor) (judgedPPS sources now o)).map SourceState.bare
  have hranked := bare_ranked sources now o
  change (((clustered sources now o) ++ (cluster (intersect (candidates sources now o)).1).2).map
    SourceState.bare).Perm _ at hcluster
  unfold rejectedSources
  -- as multisets the parts may be rearranged
  rw [← Multiset.coe_eq_coe] at hintersect hcluster hjudged hranked ⊢
  simp only [List.map_append, ← Multiset.coe_add] at hintersect hcluster hjudged hranked ⊢
  rw [hranked, ← hintersect, ← hcluster, ← hjudged]
  simp only [ne_eq, decide_not]
  abel

theorem bare_decided_subperm :
    ((rejectedSources sources now o ++ rankedSurvivors sources now o).map SourceState.bare).Subperm
      ((usableSources sources now o).map SourceState.bare) := by
  refine (bare_decided sources now o).subperm.trans ?_
  have hparts := List.filter_append_perm (·.pps) (usableSources sources now o)
  have hfits : ((candidates sources now o ++ judgedPPS sources now o).map SourceState.bare).Subperm
      ((candidates sources now o ++ (usableSources sources now o).filter (·.pps)).map
        SourceState.bare) := by
    rw [List.map_append, List.map_append]
    exact ((bare_judged sources now o).append_left _).subperm
  exact hfits.trans ((List.perm_append_comm.trans hparts).map _).subperm

end Phases

section Outcome

variable {sources : List (SourceState K)} {now : K} {n : ℤ} {o : SelectOptions K}

omit [LinearOrder K] [HasSqrt K] in
/-- Names are read off the bare sources. -/
theorem Distinct.of_bare {l m : List (SourceState K)} (h : Distinct m)
    (hbare : (l.map SourceState.bare).Subperm (m.map SourceState.bare)) : Distinct l := by
  obtain ⟨k, hperm, hsub⟩ := hbare
  have hnodup : (k.map (·.name)).Nodup := by
    have hm : ((m.map SourceState.bare).map (·.name)).Nodup := by
      rw [List.map_map]
      exact h
    exact (hsub.map (·.name)).nodup hm
  have hl := (hperm.map (·.name)).nodup_iff.mp hnodup
  rw [List.map_map] at hl
  exact hl

omit [HasSqrt K] in
theorem distinct_examined (h : Distinct sources) : Distinct (examinedSources sources now o) := by
  unfold Distinct
  rw [examined_names]
  exact h

omit [HasSqrt K] in
theorem distinct_usable (h : Distinct sources) : Distinct (usableSources sources now o) :=
  ((usable_sublist sources now o).map _).nodup (distinct_examined h)

/-- No source is decided twice. -/
theorem distinct_decided (h : Distinct sources) :
    Distinct (rejectedSources sources now o ++ rankedSurvivors sources now o) :=
  (distinct_usable h).of_bare (bare_decided_subperm sources now o)

theorem distinct_ranked (h : Distinct sources) : Distinct (rankedSurvivors sources now o) := by
  have : Distinct (rejectedSources sources now o ++ rankedSurvivors sources now o) :=
    distinct_decided h
  unfold Distinct at this
  rw [List.map_append] at this
  exact this.of_append_right

variable {l : List (SourceState K)}

omit [Field K] [LinearOrder K] [HasSqrt K] in
theorem systemSource_mem (h : systemSource l = some s) : s ∈ l := by
  unfold systemSource at h
  rcases Option.or_eq_some_iff.mp h with h | ⟨-, h⟩
  · rcases Option.or_eq_some_iff.mp h with h | ⟨-, h⟩
    · exact List.mem_of_find?_eq_some h
    · exact List.mem_of_find?_eq_some h
  · exact List.mem_of_mem_head? h

/-- The system source is a survivor, marked. -/
theorem mem_of_chosen {sys : SourceState K} (h : chosenSystem sources now n o = some sys) :
    ∃ s ∈ rankedSurvivors sources now o, sys = s.mark .system := by
  unfold chosenSystem at h
  obtain ⟨s, hs, rfl⟩ := Option.map_eq_some_iff.mp h
  split at hs
  · cases hs
  · exact ⟨s, systemSource_mem hs, rfl⟩

/-- Choosing the system source changes a role only. -/
theorem bare_final (h : Distinct sources) :
    (finalSurvivors sources now n o).map SourceState.bare
      = (rankedSurvivors sources now o).map SourceState.bare := by
  unfold finalSurvivors
  cases hchosen : chosenSystem sources now n o with
  | none => rw [Option.toList_none, writeBack_nil]
  | some sys =>
    obtain ⟨s, hs, rfl⟩ := mem_of_chosen hchosen
    unfold writeBack
    rw [List.map_map]
    apply List.map_congr_left
    intro t ht
    by_cases hname : s.name = t.name
    · have hst : s = t := List.inj_on_of_nodup_map (distinct_ranked h) hs ht hname
      subst hst
      simp [SourceState.mark, SourceState.bare]
    · simp [SourceState.mark, hname]

theorem final_names : (finalSurvivors sources now n o).map (·.name)
    = (rankedSurvivors sources now o).map (·.name) :=
  writeBack_names _ _

theorem distinct_final (h : Distinct sources) :
    Distinct (rejectedSources sources now o ++ finalSurvivors sources now n o) := by
  have hdecided : Distinct (rejectedSources sources now o ++ rankedSurvivors sources now o) :=
    distinct_decided h
  unfold Distinct at hdecided ⊢
  rw [List.map_append] at hdecided ⊢
  rw [final_names]
  exact hdecided

omit [HasSqrt K] in
/-- What is used is fit. -/
theorem usable_fit {u : SourceState K} (hu : u ∈ usableSources sources now o) : u.Fit now o := by
  obtain ⟨e, he, rfl⟩ := List.mem_map.mp hu
  obtain ⟨he, husable⟩ := List.mem_filter.mp he
  obtain ⟨s, -, rfl⟩ := List.mem_map.mp he
  rcases examine_cases s now o with ⟨-, hfit, -⟩ | ⟨hunusable, -⟩
  · exact hfit
  · rw [hunusable] at husable
    cases husable

/-- A source that is decided about is one of the fit sources in another role. -/
theorem bare_mem_usable (ht : t ∈ rejectedSources sources now o ++ finalSurvivors sources now n o) :
    ∃ u ∈ usableSources sources now o, t.bare = u.bare := by
  have hmem : t.bare ∈ (rejectedSources sources now o ++ rankedSurvivors sources now o).map
      SourceState.bare := by
    rw [List.map_append, List.mem_append]
    rcases List.mem_append.mp ht with ht | ht
    · exact .inl (List.mem_map_of_mem ht)
    · right
      rcases mem_writeBack ht with ht | ⟨ht, -⟩
      · -- the system source is a survivor in another role
        obtain ⟨s, hs, rfl⟩ := mem_of_chosen (Option.mem_toList.mp ht)
        exact List.mem_map.mpr ⟨s, hs, rfl⟩
      · exact List.mem_map_of_mem ht
  obtain ⟨u, hu, hbare⟩ := List.mem_map.mp ((bare_decided_subperm sources now o).subset hmem)
  exact ⟨u, hu, hbare.symm⟩

/-- A rejected source is a falseticker or an outlier. -/
theorem rejected_status (ht : t ∈ rejectedSources sources now o) :
    t.status = .falseticker ∨ t.status = .outlier := by
  unfold rejectedSources at ht
  rcases List.mem_append.mp ht with ht | ht
  · rcases List.mem_append.mp ht with ht | ht
    · obtain ⟨p, hp⟩ := intersect_cases (candidates sources now o)
      rw [hp] at ht
      obtain ⟨s, -, rfl⟩ := List.mem_map.mp ht
      exact .inl rfl
    · exact .inr (clusterRounds_outlier _ _ t ht)
  · obtain ⟨ht, hrole⟩ := List.mem_filter.mp ht
    have hrole : t.status ≠ .survivor := of_decide_eq_true hrole
    unfold judgedPPS at ht
    split at ht
    · cases ht
    · obtain ⟨p, -, rfl⟩ := List.mem_map.mp ht
      -- a comparison has two outcomes
      left
      unfold SourceState.qualify at hrole ⊢
      dsimp only at hrole ⊢
      split_ifs at hrole ⊢ with hagrees
      · exact absurd rfl hrole
      · rfl

/-- A survivor is the system source, or has the role of a survivor. -/
theorem final_role (ht : t ∈ finalSurvivors sources now n o) :
    chosenSystem sources now n o = some t ∧ t.status = .system ∨
      t.status = .survivor ∧ ∀ sys, chosenSystem sources now n o = some sys →
        t.name ≠ sys.name := by
  rcases mem_writeBack ht with hchosen | ⟨hranked, hother⟩
  · have hchosen := Option.mem_toList.mp hchosen
    obtain ⟨s, -, rfl⟩ := mem_of_chosen hchosen
    exact .inl ⟨hchosen, rfl⟩
  · obtain ⟨s, -, rfl⟩ := List.mem_map.mp hranked
    refine .inr ⟨rfl, fun sys hsys hname => hother ?_⟩
    rw [hsys, hname]
    simp

/-- The system source is a survivor. -/
theorem chosen_mem_final {sys : SourceState K} (h : chosenSystem sources now n o = some sys) :
    sys ∈ finalSurvivors sources now n o := by
  obtain ⟨s, hs, rfl⟩ := mem_of_chosen h
  unfold finalSurvivors
  rw [h]
  apply mem_writeBack_of_decided
  · exact List.nodup_singleton _
  · simp
  · exact List.mem_map_of_mem (f := (·.name)) hs

/-- Nobody decides about a source that is not fit, or about a PPS source that has nobody
to number its seconds. -/
theorem undecided_role (ht : t ∈ examinedSources sources now o)
    (hnobody : t.name ∉ (rejectedSources sources now o ++ rankedSurvivors sources now o).map
      (·.name)) :
    t.status.unfit = true ∨ t.status = .unqualified := by
  unfold examinedSources at ht
  rw [List.map_map] at ht
  obtain ⟨s, hs, rfl⟩ := List.mem_map.mp ht
  dsimp only [Function.comp] at hnobody ⊢
  rcases examine_cases s now o with ⟨husable, -, hrole⟩ | ⟨-, hunfit⟩
  · right
    rw [hrole]
    by_cases hpps : (s.examine now o).source.pps = true
    · rw [if_pos hpps]
    · -- a candidate is decided about
      refine absurd ?_ hnobody
      have hcand : (s.examine now o).source ∈ candidates sources now o := by
        refine List.mem_filter.mpr ⟨List.mem_map.mpr ⟨s.examine now o, ?_, rfl⟩,
          by simpa using hpps⟩
        exact List.mem_filter.mpr ⟨List.mem_map_of_mem hs, husable⟩
      have hbare : (s.examine now o).source.bare ∈
          (rejectedSources sources now o ++ rankedSurvivors sources now o).map
          SourceState.bare := by
        rw [(bare_decided sources now o).mem_iff, List.map_append]
        exact List.mem_append_left _ (List.mem_map_of_mem hcand)
      obtain ⟨d, hd, hsame⟩ := List.mem_map.mp hbare
      have hname : d.bare.name = (s.examine now o).source.bare.name :=
        congrArg SourceState.name hsame
      exact List.mem_map.mpr ⟨d, hd, hname⟩
  · exact .inl hunfit

omit [HasSqrt K] in
/-- A comparison that ends in agreement has found a source that agrees. -/
theorem ppsAgreement_agrees {p : SourceState K} {ns : List (SourceState K)}
    {closest : Option (Name × K)} (h : (ppsAgreement p now ns closest).1 = true) :
    ∃ q ∈ ns, |q.current - p.current| ≤ q.rootDistance now + max
      (4 * q.jitter) ppsAgreementFloor := by
  induction ns generalizing closest with
  | nil => cases h
  | cons q ns ih =>
    unfold ppsAgreement at h
    dsimp only at h
    split at h
    case isTrue hagrees => exact ⟨q, List.mem_cons_self, hagrees⟩
    case isFalse =>
      obtain ⟨q', hq', hagrees⟩ := ih h
      exact ⟨q', List.mem_cons_of_mem q hq', hagrees⟩

/-- A PPS survivor agrees with a survivor that numbers its seconds. -/
theorem pps_vouched (h : Distinct sources) {p : SourceState K}
    (hp : p ∈ finalSurvivors sources now n o) (hpps : p.pps = true) :
    ∃ q ∈ finalSurvivors sources now n o, q.pps = false ∧ q.numbering = true ∧
      |q.current| < ppsGuard ∧
      |q.current - p.current| ≤ q.rootDistance now + max (4 * q.jitter) ppsAgreementFloor := by
  have hfinal := (bare_ranked sources now o).mem_iff (a := p.bare)
  rw [← bare_final (n := n) h] at hfinal
  rcases List.mem_append.mp (hfinal.mp (List.mem_map_of_mem hp)) with hmem | hmem
  · -- what came through clustering is not PPS
    obtain ⟨u, hu, hbare⟩ := List.mem_map.mp hmem
    have hcand := (clustered_sublist sources now o).subset hu
    have hu' : u.pps = false := by simpa using (List.mem_filter.mp hcand).2
    have hsame : u.bare.pps = p.bare.pps := congrArg (·.pps) hbare
    exact absurd (hu'.symm.trans (hsame.trans hpps)) (by decide)
  · obtain ⟨u, hu, hbare⟩ := List.mem_map.mp hmem
    obtain ⟨hu, hrole⟩ := List.mem_filter.mp hu
    unfold judgedPPS at hu
    split at hu
    · cases hu
    obtain ⟨v, -, rfl⟩ := List.mem_map.mp hu
    have hagrees : (ppsAgreement v now (numberingSources sources now o) none).1 = true := by
      by_contra hnot
      simp [SourceState.qualify, hnot] at hrole
    have hcurrent : (v.qualify (numberingSources sources now o) now).bare.current =
        p.bare.current :=
      congrArg SourceState.current hbare
    change v.current = p.current at hcurrent
    obtain ⟨q, hq, hclose⟩ := ppsAgreement_agrees hagrees
    obtain ⟨hq, hnumbers⟩ := List.mem_filter.mp hq
    simp only [Bool.and_eq_true, decide_eq_true_eq] at hnumbers
    have hqpps : q.pps = false := by
      simpa using (List.mem_filter.mp ((clustered_sublist sources now o).subset hq)).2
    -- the numbering source survives, perhaps as the system source
    have hqfinal : q.bare ∈ (finalSurvivors sources now n o).map SourceState.bare := by
      rw [bare_final h, (bare_ranked sources now o).mem_iff]
      exact List.mem_append_left _ (List.mem_map_of_mem hq)
    obtain ⟨t, ht, htq⟩ := List.mem_map.mp hqfinal
    have hvouches : q.bare.pps = false ∧ q.bare.numbering = true ∧ |q.bare.current| < ppsGuard ∧
        |q.bare.current - p.current| ≤ q.bare.rootDistance now +
          max (4 * q.bare.jitter) ppsAgreementFloor :=
      ⟨hqpps, hnumbers.1, hnumbers.2, hcurrent ▸ hclose⟩
    rw [← htq] at hvouches
    exact ⟨t, ht, hvouches⟩

omit [LinearOrder K] [HasSqrt K] [Field K] in
theorem systemSource_eq_none : systemSource l = none ↔ l = [] := by
  unfold systemSource
  cases l with
  | nil => simp
  | cons s l => simp

/-- There is a system source if enough survive. -/
theorem chosen_isSome_iff : (chosenSystem sources now n o).isSome = true ↔
    max 1 n ≤ (finalSurvivors sources now n o).length := by
  have hlength : (finalSurvivors sources now n o).length =
      (rankedSurvivors sources now o).length := by
    unfold finalSurvivors writeBack
    rw [List.length_map]
  rw [hlength]
  unfold chosenSystem
  rw [Option.isSome_map]
  split
  case isTrue hfew =>
    simp only [Option.isSome_none, Bool.false_eq_true, false_iff, max_le_iff, not_and]
    intro _
    omega
  case isFalse henough =>
    rw [Option.isSome_iff_ne_none, ne_eq, systemSource_eq_none, ← List.length_eq_zero_iff,
      max_le_iff]
    omega

omit [HasSqrt K] in
theorem weight_pos [IsStrictOrderedRing K] (s : SourceState K) : 0 < s.weight := by
  have hfloor : (0 : K) < minDispersion / 2 := by
    unfold minDispersion
    norm_num
  exact one_div_pos.mpr (lt_max_of_lt_right hfloor)

omit [HasSqrt K] in
theorem sum_weight_pos [IsStrictOrderedRing K] (h : l ≠ []) :
    0 < (l.map (·.weight)).sum := by
  apply List.sum_pos
  · intro w hw
    obtain ⟨s, -, rfl⟩ := List.mem_map.mp hw
    exact weight_pos s
  · simpa using h

omit [HasSqrt K] in
/-- The combined offset is a weighted mean, or the preferred source's own. -/
theorem combinedOffset_between [IsStrictOrderedRing K] {sys : SourceState K} (hsys : sys ∈ l) :
    (∃ a ∈ l, a.current ≤ combinedOffset l sys) ∧ ∃ b ∈ l, combinedOffset l sys ≤ b.current := by
  unfold combinedOffset
  split
  · exact ⟨⟨sys, hsys, le_refl _⟩, sys, hsys, le_refl _⟩
  · have hne : l ≠ [] := List.ne_nil_of_mem hsys
    have hsum := sum_weight_pos hne
    generalize hmean : (l.map fun s => s.weight * s.current).sum / (l.map (·.weight)).sum = mean
    have htotal : (l.map fun s => s.weight * s.current).sum =
        (l.map fun s => s.weight * mean).sum := by
      rw [List.sum_map_mul_right, ← hmean, mul_div_cancel₀ _ hsum.ne']
    constructor
    · obtain ⟨a, ha, hle⟩ := List.exists_le_of_sum_le hne _ _ htotal.le
      exact ⟨a, ha, le_of_mul_le_mul_left hle (weight_pos a)⟩
    · obtain ⟨b, hb, hle⟩ := List.exists_le_of_sum_le hne _ _ htotal.ge
      exact ⟨b, hb, le_of_mul_le_mul_left hle (weight_pos b)⟩

/-- What has been decided about a source is what the selection leaves in it. -/
theorem decided_mem_selectAt (h : Distinct sources)
    (ht : t ∈ rejectedSources sources now o ++ finalSurvivors sources now n o) :
    t ∈ (selectAt sources now n o).1 := by
  rw [(selectAt_fields sources now n o).1]
  refine mem_writeBack_of_decided (distinct_final h) ht ?_
  obtain ⟨u, hu, hbare⟩ := bare_mem_usable ht
  have hname : u.bare.name = t.bare.name := congrArg SourceState.name hbare.symm
  exact List.mem_map.mpr ⟨u, (usable_sublist sources now o).subset hu, hname⟩

/-- A selection writes nothing else into a source than its role. -/
theorem bare_selectAt (h : Distinct sources) : (selectAt sources now n o).1.map SourceState.bare
    = (examinedSources sources now o).map SourceState.bare := by
  rw [(selectAt_fields sources now n o).1]
  unfold writeBack
  rw [List.map_map]
  apply List.map_congr_left
  intro s hs
  show ((List.find? _ _).getD s).bare = s.bare
  cases hfind : (rejectedSources sources now o ++ finalSurvivors sources now n o).find?
    (·.name = s.name) with
  | none => rfl
  | some d =>
    obtain ⟨u, hu, hbare⟩ := bare_mem_usable (List.mem_of_find?_eq_some hfind)
    have hds : d.name = s.name := by simpa using List.find?_some hfind
    have hud : u.bare.name = d.bare.name := congrArg SourceState.name hbare.symm
    have hus : u = s :=
      List.inj_on_of_nodup_map (distinct_examined h) ((usable_sublist sources now o).subset hu) hs
        (hud.trans hds)
    rw [← hus]
    exact hbare

/-- **The final roles**: rejected, surviving, or without a decision. -/
theorem selectAt_role (ht : t ∈ (selectAt sources now n o).1) :
    t ∈ rejectedSources sources now o ∨ t ∈ finalSurvivors sources now n o ∨
      t.status.unfit = true ∨ t.status = .unqualified := by
  rw [(selectAt_fields sources now n o).1] at ht
  rcases mem_writeBack ht with ht | ⟨ht, hnobody⟩
  · rcases List.mem_append.mp ht with ht | ht
    · exact .inl ht
    · exact .inr (.inl ht)
  · refine .inr (.inr (undecided_role ht fun hname => hnobody ?_))
    rwa [List.map_append, final_names, ← List.map_append]

end Outcome

/-! ## Consistency -/

/-- The roles in `all` and the selection `sel` fit together. -/
structure Selection.Consistent (sel : Selection K) (all : List (SourceState K)) (now : K) (n : ℤ)
    (o : SelectOptions K) : Prop where
  distinct : Distinct sel.survivors
  /-- The survivors are the sources with the role of one. -/
  exactly : ∀ t, t ∈ sel.survivors ↔ t ∈ all ∧ (t.status = .survivor ∨ t.status = .system)
  enough : sel.system.isSome = true ↔ max 1 n ≤ sel.survivors.length
  survives : ∀ sys, sel.system = some sys → sys ∈ sel.survivors
  unique : ∀ t ∈ all, t.status = .system ↔ sel.system = some t
  fit : ∀ t ∈ sel.survivors, t.Fit now o
  /-- A PPS survivor agrees with a survivor that numbers its seconds. -/
  vouched : ∀ p ∈ sel.survivors, p.pps = true → ∃ q ∈ sel.survivors,
    q.pps = false ∧ q.numbering = true ∧ |q.current| < ppsGuard ∧
      |q.current - p.current| ≤ q.rootDistance now + max (4 * q.jitter) ppsAgreementFloor
  between : sel.system.isSome = true → (∃ a ∈ sel.survivors, a.current ≤ sel.offset) ∧
    ∃ b ∈ sel.survivors, sel.offset ≤ b.current

/-- **Selection consistency.** -/
theorem selection_consistent [IsStrictOrderedRing K] {sources : List (SourceState K)}
    (h : Distinct sources) (now : K) (n : ℤ) (o : SelectOptions K) :
    (selectAt sources now n o).2.Consistent (selectAt sources now n o).1 now n o := by
  obtain ⟨hall, hsurvivors, hsystem, hoffset, -⟩ := selectAt_fields sources now n o
  have hdecided : Distinct (rejectedSources sources now o ++ finalSurvivors sources now n o) :=
    distinct_final h
  -- a source outside the survivors has another role
  have hother : ∀ t ∈ (selectAt sources now n o).1,
      t ∈ finalSurvivors sources now n o ∨ t.status ≠ .survivor ∧ t.status ≠ .system := by
    intro t ht
    rcases selectAt_role ht with ht | ht | hunfit | hunqualified
    · right
      rcases rejected_status ht with hst | hst <;> simp [hst]
    · exact .inl ht
    · right
      constructor <;> intro hst <;> rw [hst] at hunfit <;> cases hunfit
    · right
      simp [hunqualified]
  have hmem : ∀ t ∈ finalSurvivors sources now n o, t ∈ (selectAt sources now n o).1 :=
    fun t ht => decided_mem_selectAt h (List.mem_append_right _ ht)
  constructor
  case distinct =>
    rw [hsurvivors]
    unfold Distinct at hdecided ⊢
    rw [List.map_append] at hdecided
    exact hdecided.of_append_right
  case exactly =>
    intro t
    rw [hsurvivors]
    constructor
    · intro ht
      refine ⟨hmem t ht, ?_⟩
      rcases final_role ht with ⟨-, hst⟩ | ⟨hst, -⟩
      · exact .inr hst
      · exact .inl hst
    · rintro ⟨ht, hst⟩
      rcases hother t ht with ht | ⟨hnot, hnot'⟩
      · exact ht
      · exact absurd hst (not_or.mpr ⟨hnot, hnot'⟩)
  case enough =>
    rw [hsystem, hsurvivors]
    exact chosen_isSome_iff
  case survives =>
    intro sys hsys
    rw [hsurvivors]
    rw [hsystem] at hsys
    exact chosen_mem_final hsys
  case unique =>
    intro t ht
    rw [hsystem]
    constructor
    · intro hst
      rcases hother t ht with ht | ⟨-, hnot⟩
      · rcases final_role ht with ⟨hchosen, -⟩ | ⟨hst', -⟩
        · exact hchosen
        · exact absurd (hst.symm.trans hst') (by decide)
      · exact absurd hst hnot
    · intro hchosen
      obtain ⟨s, -, rfl⟩ := mem_of_chosen hchosen
      rfl
  case fit =>
    intro t ht
    rw [hsurvivors] at ht
    obtain ⟨u, hu, hbare⟩ := bare_mem_usable (List.mem_append_right _ ht)
    exact (usable_fit hu).of_bare hbare
  case vouched =>
    rw [hsurvivors]
    exact fun p hp hpps => pps_vouched h hp hpps
  case between =>
    rw [hsystem, hsurvivors, hoffset]
    intro hsome
    obtain ⟨sys, hsys⟩ := Option.isSome_iff_exists.mp hsome
    rw [hsys]
    exact combinedOffset_between (chosen_mem_final hsys)

/-- A server that measured `offset` a moment ago. -/
def labServer (name : Name) (offset : ℚ) : SourceState ℚ :=
  { SourceState.fresh name ⟨false, false, true, false, false⟩ with
    reach := 255
    poll := 6
    valid := true
    offset := offset
    delay := 1 / 100
    dispersion := 1 / 1000
    jitter := 1 / 1000
    stratum := 1 }

/-- The options of `Select`. -/
def plainOptions : SelectOptions ℚ := ⟨[], fun _ _ => 0⟩

/-- Two servers near each other. -/
def labPair : List (SourceState ℚ) :=
  [labServer .a (1 / 10), labServer .b (101 / 1000)]

theorem selection_consistent_labPair :
    Distinct labPair ∧ (selectAt labPair 1 1 plainOptions).2.Consistent
      (selectAt labPair 1 1 plainOptions).1 1 1 plainOptions := by
  have hdistinct : Distinct labPair := by
    unfold Distinct
    decide
  exact ⟨hdistinct, selection_consistent hdistinct 1 1 plainOptions⟩

/-- Without enough survivors there is no system source, and the offset is left at zero
although every survivor has a positive one. -/
theorem offset_without_system :
    Distinct labPair ∧ (selectAt labPair 1 3 plainOptions).2.survivors.length = 2 ∧
      ∀ a ∈ (selectAt labPair 1 3 plainOptions).2.survivors,
        (selectAt labPair 1 3 plainOptions).2.offset < a.current := by
  unfold Distinct
  decide +kernel

/-! ## Noninterference -/

/-- A source whose role says that it took no part in the outcome: it was not fit or not
qualified, or it is a PPS source that the numbering sources contradict. -/
def SourceState.Expendable (t : SourceState K) : Prop :=
  t.status.unfit = true ∨ t.status = .unqualified ∨ t.pps = true ∧ t.status = .falseticker

instance (t : SourceState K) : Decidable t.Expendable :=
  inferInstanceAs (Decidable (_ ∨ _ ∨ _))

omit [LinearOrder K] [HasSqrt K] [Field K] in
theorem not_expendable (hst : t.status = .survivor ∨ t.status = .system) :
    ¬ t.Expendable := by
  rintro (hunfit | hunqualified | ⟨-, hfalse⟩)
  · rcases hst with hst | hst <;> rw [hst] at hunfit <;> cases hunfit
  · rcases hst with hst | hst <;> rw [hst] at hunqualified <;> cases hunqualified
  · rcases hst with hst | hst <;> rw [hst] at hfalse <;> cases hfalse

section Removal

variable {sources : List (SourceState K)} {now : K} {n : ℤ} {o : SelectOptions K}
  {removed : Name → Bool}

/-- No survivor is removed. -/
theorem ranked_kept (h : Distinct sources)
    (hexpendable : ∀ t ∈ (selectAt sources now n o).1, removed t.name = true → t.Expendable)
    (hs : s.bare ∈ (rankedSurvivors sources now o).map SourceState.bare) :
    removed s.name = false := by
  rw [← bare_final (n := n) h] at hs
  obtain ⟨d, hd, hbare⟩ := List.mem_map.mp hs
  have hname : d.bare.name = s.bare.name := congrArg SourceState.name hbare
  change d.name = s.name at hname
  rw [← hname]
  by_contra hremoved
  refine not_expendable ?_ (hexpendable d (decided_mem_selectAt h (List.mem_append_right _ hd))
    (by simpa using hremoved))
  rcases final_role hd with ⟨-, hst⟩ | ⟨hst, -⟩
  · exact .inr hst
  · exact .inl hst

/-- No candidate is removed: it survives, or it is rejected without being PPS. -/
theorem candidate_kept (h : Distinct sources)
    (hexpendable : ∀ t ∈ (selectAt sources now n o).1, removed t.name = true → t.Expendable)
    {u : SourceState K} (hu : u ∈ candidates sources now o) : removed u.name = false := by
  have hmem : u.bare ∈ (rejectedSources sources now o ++ rankedSurvivors sources now o).map
      SourceState.bare := by
    rw [(bare_decided sources now o).mem_iff, List.map_append]
    exact List.mem_append_left _ (List.mem_map_of_mem hu)
  rw [List.map_append] at hmem
  rcases List.mem_append.mp hmem with hmem | hmem
  · obtain ⟨d, hd, hbare⟩ := List.mem_map.mp hmem
    have hname : d.bare.name = u.bare.name := congrArg SourceState.name hbare
    change d.name = u.name at hname
    have hpps : d.bare.pps = u.bare.pps := congrArg (·.pps) hbare
    have hnot : u.pps = false := by simpa using (List.mem_filter.mp hu).2
    change d.pps = u.pps at hpps
    rw [hnot] at hpps
    rw [← hname]
    by_contra hremoved
    rcases hexpendable d (decided_mem_selectAt h (List.mem_append_left _ hd))
      (by simpa using hremoved) with
      hunfit | hunqualified | ⟨hpps', -⟩
    · rcases rejected_status hd with hst | hst <;> rw [hst] at hunfit <;> cases hunfit
    · rcases rejected_status hd with hst | hst <;> rw [hst] at hunqualified <;> cases hunqualified
    · exact absurd (hpps.symm.trans hpps') (by decide)
  · exact ranked_kept h hexpendable hmem

omit [HasSqrt K] in
/-- The first loop looks at each source by itself. -/
theorem usable_filter (keep : Name → Bool) : usableSources (sources.filter (keep ·.name)) now o
    = (usableSources sources now o).filter (keep ·.name) := by
  unfold usableSources
  simp only [List.filter_map, List.filter_filter, Function.comp_def, examine_name, Bool.and_comm]

/-- Expendable sources are no candidates. -/
theorem candidates_filter (h : Distinct sources)
    (hexpendable : ∀ t ∈ (selectAt sources now n o).1, removed t.name = true → t.Expendable) :
    candidates (sources.filter (!removed ·.name)) now o = candidates sources now o := by
  have hkept : (candidates sources now o).filter (!removed ·.name) = candidates sources now o := by
    rw [List.filter_eq_self]
    intro u hu
    simpa using candidate_kept h hexpendable hu
  unfold candidates at hkept ⊢
  rw [usable_filter (fun name => !removed name), List.filter_comm]
  exact hkept

/-- The rejected PPS sources may go, the others stay where they are. -/
theorem ranked_filter (h : Distinct sources)
    (hexpendable : ∀ t ∈ (selectAt sources now n o).1, removed t.name = true → t.Expendable) :
    rankedSurvivors (sources.filter (!removed ·.name)) now o = rankedSurvivors sources now o := by
  have hclustered : clustered (sources.filter (!removed ·.name)) now o =
      clustered sources now o := by
    unfold clustered
    rw [candidates_filter h hexpendable]
  have hnumbering : numberingSources (sources.filter (!removed ·.name)) now o =
      numberingSources sources now o := by
    unfold numberingSources
    rw [hclustered]
  have hjudged : judgedPPS (sources.filter (!removed ·.name)) now o
      = (judgedPPS sources now o).filter (!removed ·.name) := by
    unfold judgedPPS
    rw [hnumbering]
    split
    · rfl
    · rw [usable_filter (fun name => !removed name), List.filter_map, List.filter_comm]
      rfl
  have hkept : ((judgedPPS sources now o).filter (!removed ·.name)).filter (·.status = .survivor)
      = (judgedPPS sources now o).filter (·.status = .survivor) := by
    rw [List.filter_comm, List.filter_eq_self]
    intro p hp
    have hmem : p.bare ∈ (rankedSurvivors sources now o).map SourceState.bare := by
      rw [(bare_ranked sources now o).mem_iff]
      exact List.mem_append_right _ (List.mem_map_of_mem hp)
    simpa using ranked_kept h hexpendable hmem
  unfold rankedSurvivors
  rw [hclustered, hjudged, hkept]

end Removal

/-- **Selection noninterference.**  Sources that end up expendable may as well be removed,
whatever they carry. -/
theorem selection_noninterference {sources : List (SourceState K)} (h : Distinct sources)
    (now : K) (n : ℤ) (o : SelectOptions K) (removed : Name → Bool)
    (hexpendable : ∀ t ∈ (selectAt sources now n o).1, removed t.name = true → t.Expendable) :
    (selectAt (sources.filter (!removed ·.name)) now n o).2.survivors =
    (selectAt sources now n o).2.survivors ∧
    (selectAt (sources.filter (!removed ·.name)) now n o).2.system =
    (selectAt sources now n o).2.system ∧
    (selectAt (sources.filter (!removed ·.name)) now n o).2.offset =
    (selectAt sources now n o).2.offset ∧
    (selectAt (sources.filter (!removed ·.name)) now n o).2.jitter =
    (selectAt sources now n o).2.jitter ∧
    (selectAt (sources.filter (!removed ·.name)) now n o).2.low = (selectAt sources now n o).2.low ∧
    (selectAt (sources.filter (!removed ·.name)) now n o).2.high =
    (selectAt sources now n o).2.high ∧
    (selectAt (sources.filter (!removed ·.name)) now n o).2.ppsQualified
      = (selectAt sources now n o).2.ppsQualified := by
  have hcandidates := candidates_filter h hexpendable
  have hranked := ranked_filter h hexpendable
  have hchosen : chosenSystem (sources.filter (!removed ·.name)) now n o =
      chosenSystem sources now n o := by
    unfold chosenSystem
    rw [hranked]
  have hfinal : finalSurvivors (sources.filter (!removed ·.name)) now n o =
      finalSurvivors sources now n o := by
    unfold finalSurvivors
    rw [hchosen, hranked]
  have hnumbering : numberingSources (sources.filter (!removed ·.name)) now o =
      numberingSources sources now o := by
    unfold numberingSources clustered
    rw [hcandidates]
  obtain ⟨-, hsurvivors', hsystem', hoffset', hjitter', hpps', hlow', hhigh'⟩ :=
    selectAt_fields (sources.filter (!removed ·.name)) now n o
  obtain ⟨-, hsurvivors, hsystem, hoffset, hjitter, hpps, hlow, hhigh⟩ :=
    selectAt_fields sources now n o
  rw [hsurvivors', hsystem', hoffset', hjitter', hpps', hlow', hhigh', hfinal, hchosen,
    hcandidates, hnumbering]
  exact ⟨hsurvivors.symm, hsystem.symm, hoffset.symm, hjitter.symm, hlow.symm,
    hhigh.symm, hpps.symm⟩

/-- A third server has not been heard of for eight polls. -/
def labTrio : List (SourceState ℚ) :=
  labPair ++ [{ labServer .c 7 with reach := 0 }]

theorem selection_noninterference_labTrio :
    (∀ t ∈ (selectAt labTrio 1 1 plainOptions).1, decide (t.name.1 = "c") = true → t.Expendable) ∧
      (selectAt (labTrio.filter fun t => !decide (t.name.1 = "c")) 1 1 plainOptions).2.offset
        = (selectAt labTrio 1 1 plainOptions).2.offset := by
  have hdistinct : Distinct labTrio := by
    unfold Distinct
    decide
  have hexpendable : ∀ t ∈ (selectAt labTrio 1 1 plainOptions).1,
      decide (t.name.1 = "c") = true → t.Expendable := by
    decide +kernel
  exact ⟨hexpendable,
    (selection_noninterference hdistinct 1 1 plainOptions (fun name => decide (name.1 = "c"))
    hexpendable).2.2.1⟩

end Carillon.Discipline
