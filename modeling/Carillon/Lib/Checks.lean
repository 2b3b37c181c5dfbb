/-
# Checks in a row

A function that makes one check after another and fails with the error of the first that
does not pass.  Each lemma says when one link of the chain gives a result, so that a
whole chain is taken apart, or put together, link by link.
-/
import Mathlib.Logic.Basic

namespace Checks

variable {ε ε' α β : Type}

/-- A step of the chain: its result goes on to the rest. -/
theorem bind_eq_ok {x : Except ε α} {f : α → Except ε β} {b : β} :
    x >>= f = .ok b ↔ ∃ a, x = .ok a ∧ f a = .ok b := by
  cases x with
  | error e => exact ⟨nofun, nofun⟩
  | ok a => exact ⟨fun h => ⟨a, rfl, h⟩, fun ⟨a', ha, h⟩ => Except.ok.inj ha ▸ h⟩

/-- A check that throws lets the rest go on when its condition does not hold. -/
theorem ite_throw_eq_ok {c : Prop} [Decidable c] {e : ε} {f : PUnit → Except ε β}
    {rest : Except ε β} {b : β} :
    (if c then (throw e : Except ε PUnit) >>= f else rest) = .ok b ↔ ¬c ∧ rest = .ok b := by
  by_cases hc : c
  · rw [if_pos hc]
    exact ⟨nofun, fun h => absurd hc h.1⟩
  · rw [if_neg hc]
    exact ⟨fun h => ⟨hc, h⟩, fun h => h.2⟩

/-- A change of the errors leaves the results. -/
theorem mapError_eq_ok {f : ε → ε'} {x : Except ε α} {a : α} :
    x.mapError f = .ok a ↔ x = .ok a := by
  cases x with
  | error e => exact ⟨nofun, nofun⟩
  | ok b =>
    constructor
    · rintro ⟨⟩
      rfl
    · rintro ⟨⟩
      rfl

end Checks
