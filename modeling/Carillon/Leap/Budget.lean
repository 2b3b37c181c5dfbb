/-
# Budgets under contention

The listeners share the budgets of the distributor, and each call of `allow` is a load of the
virtual finish time and a swap, at most eight times.  Here any number of calls run at once: a
step of the machine is one atomic access of one of them, with the little that follows it in
the listener.  Their clock readings need not be in the order of the swaps.

What a budget admits is bounded all the same, since each swap that succeeds moves the finish
time on by an interval, and none moves it further ahead of its own reading than the burst.
-/
import Carillon.Lib.Runs
import Carillon.Lib.Tokens
import Carillon.Leap.Distributor

namespace Carillon.Leap

open Tokens (Booked)

/-! ## Concurrent calls -/

/-- Where a call of `allow` is. -/
inductive BudgetPhase where
  | load
  /-- It has loaded `old` and is about to swap. -/
  | swap (old : ℤ)
  | done (allowed : Bool)
  deriving DecidableEq

/-- A call of `allow`; `tries` are the swaps it has lost. -/
structure BudgetCall where
  now : ℤ
  tries : ℕ
  phase : BudgetPhase
  deriving DecidableEq

/-- The word of a budget, the calls made so far, and the swaps that succeeded, in their order:
the call and its clock reading. -/
structure Budget where
  finish : ℤ
  calls : List BudgetCall
  admissions : List (ℕ × ℤ)
  deriving DecidableEq

def Budget.new : Budget := ⟨0, [], []⟩

inductive BudgetOp where
  | call (now : ℤ)
  /-- The next atomic access of a call. -/
  | advance (i : ℕ)

section

variable (interval burst : ℤ)

/-- `next` of `allow`, in a 64-bit word. -/
def nextFinish (old now : ℤ) : ℤ := (max old now + interval).bmod (2 ^ 64)

/-- The budget is exhausted. -/
def Exhausted (old now : ℤ) : Prop :=
  burst * interval < (nextFinish interval old now - now).bmod (2 ^ 64)

instance (old now : ℤ) : Decidable (Exhausted interval burst old now) :=
  inferInstanceAs (Decidable (_ < _))

/-- The access that a call makes next. -/
def Budget.advance (s : Budget) (i : ℕ) (c : BudgetCall) : Option Budget :=
  match c.phase with
  | .load =>
    let phase := if Exhausted interval burst s.finish c.now then .done false else .swap s.finish
    some { s with calls := s.calls.set i { c with phase := phase } }
  | .swap old =>
    if s.finish = old then
      some
        { finish := nextFinish interval old c.now
          calls := s.calls.set i { c with phase := .done true }
          admissions := s.admissions ++ [(i, c.now)] }
    else
      let phase := if c.tries + 1 < 8 then .load else .done false
      some { s with calls := s.calls.set i { c with tries := c.tries + 1, phase := phase } }
  | .done _ => none

def Budget.step (s : Budget) : BudgetOp → Option Budget
  | .call now => some { s with calls := s.calls ++ [⟨now, 0, .load⟩] }
  | .advance i => (s.calls[i]?).bind (s.advance interval burst i)

/-- Clock readings are not negative, as `Respond` makes sure, and the sum that is computed after
a load fits into the word. -/
def Budget.Fits (s : Budget) : BudgetOp → Prop
  | .call now => 0 ≤ now
  | .advance i => ∀ c ∈ s.calls[i]?, c.phase = .load → max s.finish c.now + interval < 2 ^ 63

instance (s : Budget) : (op : BudgetOp) → Decidable (s.Fits interval op)
  | .call now => inferInstanceAs (Decidable (0 ≤ now))
  | .advance i => inferInstanceAs (Decidable (∀ c ∈ s.calls[i]?, _))

end

/-! ## One access -/

/-- What an access may do to the finish time, to the call and to the admissions. -/
inductive Access (interval burst finish : ℤ) (c : BudgetCall) : ℤ → BudgetCall → Bool → Prop
  | refuse (hphase : c.phase = .load) (hover : Exhausted interval burst finish c.now) :
      Access interval burst finish c finish { c with phase := .done false } false
  | load (hphase : c.phase = .load) (hunder : ¬Exhausted interval burst finish c.now) :
      Access interval burst finish c finish { c with phase := .swap finish } false
  | swap (hphase : c.phase = .swap finish) :
      Access interval burst finish c (nextFinish interval finish c.now)
        { c with phase := .done true } true
  | lose (old : ℤ) (hphase : c.phase = .swap old) (hne : finish ≠ old) (htries : c.tries + 1 < 8) :
      Access interval burst finish c finish { c with tries := c.tries + 1, phase := .load } false
  | giveUp (old : ℤ) (hphase : c.phase = .swap old) (hne : finish ≠ old)
      (htries : ¬c.tries + 1 < 8) :
      Access interval burst finish c finish { c with tries := c.tries + 1, phase := .done false }
        false

section

variable {interval burst : ℤ} {c : BudgetCall} {i : ℕ}

/-- Every move of a call is one access to the shared word. -/
theorem advance_access {s t : Budget} (h : s.advance interval burst i c = some t) :
    ∃ c' admitted, Access interval burst s.finish c t.finish c' admitted ∧
      t.calls = s.calls.set i c' ∧
      t.admissions = s.admissions ++ if admitted then [(i, c.now)] else [] := by
  unfold Budget.advance at h
  split at h
  case h_1 hphase =>
    split_ifs at h with hover <;> cases h
    · exact ⟨_, _, .refuse hphase hover, rfl, (List.append_nil _).symm⟩
    · exact ⟨_, _, .load hphase hover, rfl, (List.append_nil _).symm⟩
  case h_2 old hphase =>
    split_ifs at h with hsame htries <;> cases h
    · subst hsame
      exact ⟨_, true, .swap hphase, rfl, rfl⟩
    · exact ⟨_, _, .lose old hphase hsame htries, rfl, (List.append_nil _).symm⟩
    · exact ⟨_, _, .giveUp old hphase hsame htries, rfl, (List.append_nil _).symm⟩
  case h_3 => cases h

/-! ## Without overflow -/

variable {old now : ℤ}

/-- Without overflow the next finish is one interval on. -/
theorem nextFinish_eq (hinterval : 0 < interval) (hold : 0 ≤ old)
    (hfits : max old now + interval < 2 ^ 63) :
    nextFinish interval old now = max old now + interval :=
  Int.bmod_eq_of_le (by omega) (by omega)

/-- The budget is exhausted if the next finish is further ahead than the burst. -/
theorem exhausted_iff (hinterval : 0 < interval) (hold : 0 ≤ old) (hnow : 0 ≤ now)
    (hfits : max old now + interval < 2 ^ 63) :
    Exhausted interval burst old now ↔ burst * interval < max old now + interval - now := by
  rw [Exhausted, nextFinish_eq hinterval hold hfits, Int.bmod_eq_of_le (by omega) (by omega)]

/-! ## What holds of every call -/

/-- A call that goes on from a loaded value answers as `budgetAllow` does from some value that
it may have loaded first and for some writes of the others. -/
def BudgetCall.Continues (interval burst : ℤ) (c : BudgetCall) (old : ℤ) : Prop :=
  ∃ first writes, ∀ rest, budgetAllow c.now interval burst 8 (writes ++ rest) first =
    budgetAllow c.now interval burst (8 - c.tries) rest old

/-- A call follows `budgetAllow`; the finish time only grows. -/
def BudgetCall.Follows (interval burst finish : ℤ) (c : BudgetCall) : Prop :=
  match c.phase with
  | .load => ∀ old, finish ≤ old → c.Continues interval burst old
  | .swap old => old ≤ finish ∧ c.Continues interval burst old
  | .done allowed => ∃ first writes, (budgetAllow c.now interval burst 8 writes first).1 = allowed

structure BudgetCall.Sound (interval burst finish : ℤ) (log : List (ℕ × ℤ)) (i : ℕ)
    (c : BudgetCall) : Prop where
  now_nonneg : 0 ≤ c.now
  tries : c.phase = .done false ∨ c.tries < 8
  swap : ∀ old, c.phase = .swap old →
    0 ≤ old ∧ max old c.now + interval < 2 ^ 63 ∧ ¬Exhausted interval burst old c.now
  admitted : c.phase = .done true ↔ i ∈ log.map Prod.fst
  follows : c.Follows interval burst finish

/-- An admission with its clock reading in the window. -/
def inWindow (start stop : ℤ) (a : ℕ × ℤ) : Bool := start ≤ a.2 ∧ a.2 ≤ stop

structure Budget.Sound (interval burst : ℤ) (s : Budget) : Prop where
  nonneg : 0 ≤ s.finish
  call : ∀ (i : ℕ) (c : BudgetCall), s.calls[i]? = some c →
    c.Sound interval burst s.finish s.admissions i
  known : ∀ a ∈ s.admissions, a.1 < s.calls.length
  once : (s.admissions.map Prod.fst).Nodup
  booked : ∀ start stop, Booked interval burst start stop s.finish
    (s.admissions.countP (inWindow start stop))

/-- A new budget is sound. -/
theorem sound_new : Budget.new.Sound interval burst :=
  ⟨le_refl 0, fun _ _ h => absurd h (by simp [Budget.new]),
    fun _ h => absurd h List.not_mem_nil, List.nodup_nil, fun _ _ => Tokens.booked_zero⟩

/-- So is one with a call more. -/
theorem sound_call {s : Budget} (h : s.Sound interval burst) (hnow : 0 ≤ now) :
    Budget.Sound interval burst { s with calls := s.calls ++ [⟨now, 0, .load⟩] } := by
  refine ⟨h.nonneg, fun i c hc => ?_, fun a ha => ?_, h.once, h.booked⟩
  · rcases Nat.lt_or_ge i s.calls.length with hlt | hge
    · exact h.call i c ((List.getElem?_append_left hlt).symm.trans hc)
    · -- the new call
      have hi : i = s.calls.length := by
        obtain ⟨hlt, -⟩ := List.getElem?_eq_some_iff.mp hc
        rw [List.length_append, List.length_singleton] at hlt
        omega
      subst hi
      rw [List.getElem?_concat_length, Option.some.injEq] at hc
      subst hc
      refine ⟨hnow, .inr (Nat.zero_lt_succ 7), nofun, iff_of_false nofun fun hmem => ?_,
        fun old _ => ⟨old, [], fun rest => rfl⟩⟩
      obtain ⟨a, ha, hfst⟩ := List.mem_map.mp hmem
      exact absurd (h.known a ha) (by omega)
  · have hlt := h.known a ha
    rw [List.length_append]
    omega

variable {log : List (ℕ × ℤ)} {admitted : Bool} {finish finish' : ℤ}

/-- The finish time grows. -/
theorem Access.finish_le {c c' : BudgetCall} (hinterval : 0 < interval)
    (h : Access interval burst finish c finish' c' admitted)
    (hc : c.Sound interval burst finish log i) : finish ≤ finish' := by
  cases h with
  | swap hphase =>
    obtain ⟨hold, hfits, -⟩ := hc.swap finish hphase
    rw [nextFinish_eq hinterval hold hfits]
    omega
  | _ => exact le_refl finish

/-- Another call is not touched by an access. -/
theorem BudgetCall.Sound.other {c d : BudgetCall} {i j : ℕ}
    (hd : d.Sound interval burst finish log j) (hle : finish ≤ finish') (hne : j ≠ i) :
    d.Sound interval burst finish' (log ++ if admitted then [(i, c.now)] else []) j := by
  refine ⟨hd.now_nonneg, hd.tries, hd.swap, ?_, ?_⟩
  · rw [hd.admitted]
    cases admitted <;> simp [hne]
  · have hfollows := hd.follows
    unfold BudgetCall.Follows at hfollows ⊢
    split
    case h_1 hphase =>
      rw [hphase] at hfollows
      exact fun old hold => hfollows old (hle.trans hold)
    case h_2 old hphase =>
      rw [hphase] at hfollows
      exact ⟨hfollows.1.trans hle, hfollows.2⟩
    case h_3 allowed hphase =>
      rw [hphase] at hfollows
      exact hfollows

/-- A call that has not returned has tries left, and has not been admitted. -/
theorem BudgetCall.Sound.running {finish : ℤ} (hc : c.Sound interval burst finish log i)
    (hphase : ∀ allowed, c.phase ≠ .done allowed) :
    c.tries < 8 ∧ i ∉ log.map Prod.fst :=
  ⟨hc.tries.resolve_left (hphase false), mt hc.admitted.mpr (hphase true)⟩

/-- One round of `budgetAllow`. -/
theorem BudgetCall.Continues.round (h : c.Continues interval burst old) (htries : c.tries < 8) :
    ∃ first writes, ∀ rest, budgetAllow c.now interval burst 8 (writes ++ rest) first =
      if Exhausted interval burst old c.now then (false, old)
      else match rest with
        | [] => (true, nextFinish interval old c.now)
        | w :: rest =>
          if w = old then (true, nextFinish interval old c.now)
          else budgetAllow c.now interval burst (8 - (c.tries + 1)) rest w := by
  obtain ⟨first, writes, hrest⟩ := h
  refine ⟨first, writes, fun rest => (hrest rest).trans ?_⟩
  have hsucc : 8 - c.tries = 8 - (c.tries + 1) + 1 := by omega
  rw [hsucc]
  rfl

/-- A lost swap goes on with the next load. -/
theorem BudgetCall.Continues.lose {w : ℤ} (h : c.Continues interval burst old)
    (htries : c.tries < 8) (hunder : ¬Exhausted interval burst old c.now) (hne : w ≠ old)
    (phase : BudgetPhase) :
    BudgetCall.Continues interval burst { c with tries := c.tries + 1, phase := phase } w := by
  obtain ⟨first, writes, hrest⟩ := h.round htries
  refine ⟨first, writes ++ [w], fun rest => ?_⟩
  have hround := hrest (w :: rest)
  rw [if_neg hunder] at hround
  dsimp only at hround
  rw [if_neg hne] at hround
  rw [List.append_assoc]
  exact hround

/-- The call that makes the access. -/
theorem Access.sound {c c' : BudgetCall} (h : Access interval burst finish c finish' c' admitted)
    (hfits : c.phase = .load → max finish c.now + interval < 2 ^ 63) (hfinish : 0 ≤ finish)
    (hc : c.Sound interval burst finish log i) :
    c'.Sound interval burst finish' (log ++ if admitted then [(i, c.now)] else []) i := by
  have hfollows := hc.follows
  unfold BudgetCall.Follows at hfollows
  cases h with
  | refuse hphase hover =>
    rw [hphase] at hfollows
    obtain ⟨htries, hnot⟩ := hc.running (by simp [hphase])
    obtain ⟨first, writes, hround⟩ := (hfollows finish (le_refl _)).round htries
    refine ⟨hc.now_nonneg, .inl rfl, nofun, iff_of_false nofun (by simpa using hnot),
      first, writes ++ [], ?_⟩
    rw [hround, if_pos hover]
  | load hphase hunder =>
    rw [hphase] at hfollows
    obtain ⟨htries, hnot⟩ := hc.running (by simp [hphase])
    refine ⟨hc.now_nonneg, .inr htries, ?_, iff_of_false nofun (by simpa using hnot),
      le_refl _, hfollows finish (le_refl _)⟩
    rintro old ⟨⟩
    exact ⟨hfinish, hfits hphase, hunder⟩
  | swap hphase =>
    rw [hphase] at hfollows
    obtain ⟨htries, -⟩ := hc.running (by simp [hphase])
    obtain ⟨first, writes, hround⟩ := hfollows.2.round htries
    refine ⟨hc.now_nonneg, .inr htries, nofun, iff_of_true rfl (by simp),
      first, writes ++ [], ?_⟩
    rw [hround, if_neg (hc.swap finish hphase).2.2]
  | lose old hphase hne htries =>
    rw [hphase] at hfollows
    obtain ⟨-, hnot⟩ := hc.running (by simp [hphase])
    refine ⟨hc.now_nonneg, .inr htries, nofun, iff_of_false nofun (by simpa using hnot),
      fun w hw => ?_⟩
    -- the finish time has grown since the load
    have hlt : old < finish := lt_of_le_of_ne hfollows.1 hne.symm
    exact hfollows.2.lose (by omega) (hc.swap old hphase).2.2 (by omega) _
  | giveUp old hphase hne htries =>
    rw [hphase] at hfollows
    obtain ⟨hlast, hnot⟩ := hc.running (by simp [hphase])
    obtain ⟨first, writes, hrest⟩ :=
      hfollows.2.lose hlast (hc.swap old hphase).2.2 hne (.done false)
    refine ⟨hc.now_nonneg, .inl rfl, nofun, iff_of_false nofun (by simpa using hnot),
      first, writes ++ [], ?_⟩
    have hzero : 8 - (c.tries + 1) = 0 := by omega
    rw [hrest, hzero]
    rfl

/-- The books of a window across an access. -/
theorem Access.booked {finish finish' start stop : ℤ} {c c' : BudgetCall} (hinterval : 0 < interval)
    (h : Access interval burst finish c finish' c' admitted)
    (hc : c.Sound interval burst finish log i)
    (hbooked : Booked interval burst start stop finish (log.countP (inWindow start stop))) :
    Booked interval burst start stop finish'
      ((log ++ if admitted then [(i, c.now)] else []).countP (inWindow start stop)) := by
  have hle := h.finish_le hinterval hc
  cases h with
  | swap hphase =>
    obtain ⟨hold, hfits, hunder⟩ := hc.swap finish hphase
    rw [exhausted_iff hinterval hold hc.now_nonneg hfits, not_lt] at hunder
    rw [if_pos rfl, List.countP_append, List.countP_singleton]
    by_cases hin : inWindow start stop (i, c.now) = true
    · obtain ⟨hstart, hstop⟩ : start ≤ c.now ∧ c.now ≤ stop := by simpa [inWindow] using hin
      rw [if_pos hin, nextFinish_eq hinterval hold hfits]
      exact hbooked.admit hstart hstop hunder
    · rw [if_neg hin]
      exact hbooked.later hle
  | _ =>
    rw [if_neg Bool.false_ne_true, List.append_nil]
    exact hbooked

/-- The call has not been admitted before. -/
theorem Access.once {c c' : BudgetCall} (h : Access interval burst finish c finish' c' admitted)
    (hc : c.Sound interval burst finish log i) (honce : (log.map Prod.fst).Nodup) :
    ((log ++ if admitted then [(i, c.now)] else []).map Prod.fst).Nodup := by
  cases h with
  | swap hphase =>
    obtain ⟨-, hnot⟩ := hc.running (by simp [hphase])
    rw [if_pos rfl, List.map_append, List.nodup_append_comm, List.map_singleton,
      List.singleton_append, List.nodup_cons]
    exact ⟨hnot, honce⟩
  | _ =>
    rw [if_neg Bool.false_ne_true, List.append_nil]
    exact honce

/-! ## Every interleaving -/

/-- Every step keeps the budget sound. -/
theorem step_sound {s t : Budget} {op : BudgetOp} (hinterval : 0 < interval)
    (h : s.Sound interval burst) (hfits : s.Fits interval op)
    (hstep : s.step interval burst op = some t) : t.Sound interval burst := by
  cases op with
  | call now =>
    cases hstep
    exact sound_call h hfits
  | advance i =>
    obtain ⟨c, hc, hadvance⟩ := Option.bind_eq_some_iff.mp hstep
    obtain ⟨c', admitted, haccess, hcalls, hlog⟩ := advance_access hadvance
    have hsound := h.call i c hc
    have hlt : i < s.calls.length := (List.getElem?_eq_some_iff.mp hc).1
    have hle := haccess.finish_le hinterval hsound
    refine ⟨h.nonneg.trans hle, fun j d hd => ?_, fun a ha => ?_, ?_, fun start stop => ?_⟩
    · rw [hlog]
      rw [hcalls] at hd
      by_cases hji : j = i
      · subst hji
        rw [List.getElem?_set_self hlt, Option.some.injEq] at hd
        subst hd
        exact haccess.sound (hfits c hc) h.nonneg hsound
      · rw [List.getElem?_set_ne (Ne.symm hji)] at hd
        exact (h.call j d hd).other hle hji
    · rw [hcalls, List.length_set]
      rw [hlog, List.mem_append] at ha
      rcases ha with ha | ha
      · exact h.known a ha
      · cases admitted with
        | false => exact absurd ha List.not_mem_nil
        | true =>
          rw [List.mem_singleton.mp ha]
          exact hlt
    · rw [hlog]
      exact haccess.once hsound h.once
    · rw [hlog]
      exact haccess.booked hinterval hsound (h.booked start stop)

/-- So does every run. -/
theorem run_sound {s : Budget} {ops : List BudgetOp} (hinterval : 0 < interval)
    (hfits : Runs.Along (Budget.step interval burst) (Budget.Fits interval) .new ops)
    (hrun : Runs.run (Budget.step interval burst) .new ops = some s) : s.Sound interval burst :=
  Runs.run_invariant (fun _ _ _ h hfits hstep => step_sound hinterval h hfits hstep) sound_new
    hfits hrun

/-- The calls answer as `budgetAllow` does. -/
theorem run_budgetAllow {s : Budget} {ops : List BudgetOp} {allowed : Bool}
    (hinterval : 0 < interval)
    (hfits : Runs.Along (Budget.step interval burst) (Budget.Fits interval) .new ops)
    (hrun : Runs.run (Budget.step interval burst) .new ops = some s) (hc : s.calls[i]? = some c)
    (hdone : c.phase = .done allowed) :
    ∃ first writes, (budgetAllow c.now interval burst 8 writes first).1 = allowed := by
  have hfollows := ((run_sound hinterval hfits hrun).call i c hc).follows
  rwa [BudgetCall.Follows, hdone] at hfollows

/-- **The bound on a budget.**  However the accesses of any calls interleave, the admissions
with a clock reading in a window are at most the burst and one for each interval of its length.
No call is admitted twice, a call returns true exactly when it has been admitted, and one that
has lost all its swaps has returned false. -/
theorem budget_bound (hinterval : 0 < interval) (hburst : 0 ≤ burst) (ops : List BudgetOp)
    (s : Budget) (hrun : Runs.run (Budget.step interval burst) .new ops = some s)
    (hfits : Runs.Along (Budget.step interval burst) (Budget.Fits interval) .new ops) :
    (∀ t d : ℤ, 0 ≤ d →
      (s.admissions.countP (fun a => t ≤ a.2 ∧ a.2 ≤ t + d) : ℤ) ≤ burst + d / interval) ∧
    (s.admissions.map Prod.fst).Nodup ∧
    ∀ (i : ℕ) (c : BudgetCall), s.calls[i]? = some c →
      (c.phase = .done true ↔ i ∈ s.admissions.map Prod.fst) ∧
        (c.tries = 8 → c.phase = .done false) := by
  have h := run_sound hinterval hfits hrun
  refine ⟨fun t d hd => ?_, h.once, fun i c hc => ?_⟩
  · obtain ⟨-, hbound⟩ := h.booked t (t + d)
    show ((s.admissions.countP (inWindow t (t + d)) : ℕ) : ℤ) ≤ burst + d / interval
    rw [add_sub_cancel_left] at hbound
    rcases Nat.eq_zero_or_pos (s.admissions.countP (inWindow t (t + d))) with hzero | hpos
    · rw [hzero]
      exact add_nonneg hburst (Int.ediv_nonneg hd hinterval.le)
    · have hle : (s.admissions.countP (inWindow t (t + d)) - burst : ℤ) ≤ d / interval := by
        rw [Int.le_ediv_iff_mul_le hinterval, sub_mul]
        exact sub_le_iff_le_add'.mpr (hbound hpos)
      exact sub_le_iff_le_add'.mp hle
  · have hsound := h.call i c hc
    exact ⟨hsound.admitted, fun htries => hsound.tries.resolve_right (by omega)⟩

end

/-- Three calls on the budget of a key.  The last one has read its clock before the second, which
loses a swap to it and then finds the budget exhausted. -/
def budgetOps : List BudgetOp :=
  [.call (10 * second), .advance 0, .advance 0, .call (11 * second), .call (10 * second),
    .advance 1, .advance 2, .advance 2, .advance 1, .advance 1]

theorem budget_bound_budgetOps :
    ∃ s, Runs.run (Budget.step (4 * second) 2) .new budgetOps = some s ∧
      s.admissions = [(0, 10 * second), (2, 10 * second)] ∧
      (s.admissions.countP (fun a => 10 * second ≤ a.2 ∧ a.2 ≤ 10 * second + second) : ℤ) ≤
        2 + second / (4 * second) := by
  obtain ⟨s, hrun, hlog⟩ := Option.map_eq_some_iff.mp
    (by decide +kernel : (Runs.run (Budget.step (4 * second) 2) .new budgetOps).map (·.admissions) =
      some [(0, 10 * second), (2, 10 * second)])
  exact ⟨s, hrun, hlog, (budget_bound (by decide) (by decide) budgetOps s hrun
    (by decide +kernel)).1 (10 * second) second (by decide)⟩

end Carillon.Leap
