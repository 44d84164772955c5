-- Computations that may fail: what is known of the parts of one that succeeds.
import Mathlib.Logic.Basic

namespace prom_fleet

variable {ε ε' α β : Type}

/-- The check that stops with `e` unless `p` holds. -/
def ensure (p : Prop) [Decidable p] (e : ε) : Except ε Unit := if p then .ok () else .error e

variable {e : ε}

theorem ensure_eq_ok {p : Prop} [Decidable p] {u : Unit} : ensure p e = .ok u ↔ p := by
  unfold ensure
  split
  · simp [*]
  · simp [*]

variable {a : α} {b : β} {x : Except ε α}

theorem bind_eq_ok {f : α → Except ε β} : x >>= f = .ok b ↔ ∃ a, x = .ok a ∧ f a = .ok b := by
  cases x with
  | error e =>
    constructor
    · intro h
      cases h
    · rintro ⟨_, h, _⟩
      cases h
  | ok a =>
    constructor
    · intro h
      exact ⟨a, rfl, h⟩
    · rintro ⟨_, h, h'⟩
      cases h
      exact h'

theorem mapError_eq_ok {f : ε → ε'} : x.mapError f = .ok a ↔ x = .ok a := by
  cases x with
  | error => constructor <;> (intro h; cases h)
  | ok => constructor <;> (intro h; cases h; rfl)

theorem map_eq_ok {f : α → β} : x.map f = .ok b ↔ ∃ a, x = .ok a ∧ f a = b := by
  cases x with
  | error | ok => simp [Except.map]

theorem toOption_eq_some : x.toOption = some a ↔ x = .ok a := by
  cases x with
  | error | ok => simp [Except.toOption]

end prom_fleet
