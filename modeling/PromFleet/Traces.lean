-- Systems that move by events: an event is possible in a state or not, a trace is a list of
-- events, and what each event keeps is kept by every trace.
import Mathlib.Data.List.Basic

namespace prom_fleet.traces

variable {σ ε : Type} {step : σ → ε → Option σ} {C : σ → ε → Prop} {I : σ → Prop} {s t : σ}
  {e : ε} {es : List ε}

/-- The state after a trace, if each of its events is possible. -/
def run (step : σ → ε → Option σ) : σ → List ε → Option σ
  | s, [] => some s
  | s, e :: es => (step s e).bind fun t => run step t es

/-- Each event of the trace meets the condition `C` in the state before it. -/
def Meets (step : σ → ε → Option σ) (C : σ → ε → Prop) : σ → List ε → Prop
  | _, [] => True
  | s, e :: es => C s e ∧ (step s e).elim True fun t => Meets step C t es

instance decidableMeets [∀ s e, Decidable (C s e)] :
    ∀ s es, Decidable (Meets step C s es)
  | _, [] => inferInstanceAs (Decidable True)
  | s, e :: es =>
    have : Decidable ((step s e).elim True fun t => Meets step C t es) :=
      match step s e with
      | none => inferInstanceAs (Decidable True)
      | some t => decidableMeets t es
    inferInstanceAs (Decidable (_ ∧ _))

theorem run_cons :
    run step s (e :: es) = some t ↔ ∃ u, step s e = some u ∧ run step u es = some t :=
  Option.bind_eq_some_iff

theorem run_keeps_if (hI : ∀ s e t, C s e → I s → step s e = some t → I t) (h : I s)
    (hm : Meets step C s es) (hr : run step s es = some t) : I t := by
  induction es generalizing s with
  | nil => cases hr; exact h
  | cons e es ih =>
    obtain ⟨u, hu, hr'⟩ := run_cons.mp hr
    obtain ⟨hc, hm'⟩ := hm
    rw [hu] at hm'
    exact ih (hI s e u hc h hu) hm' hr'

theorem run_keeps (hI : ∀ s e t, I s → step s e = some t → I t) (h : I s)
    (hr : run step s es = some t) : I t := by
  induction es generalizing s with
  | nil => cases hr; exact h
  | cons e es ih =>
    obtain ⟨u, hu, hr'⟩ := run_cons.mp hr
    exact ih (hI s e u h hu) hr'

end prom_fleet.traces
