-- Two runs of one system. If related operations on related states give related answers
-- and related states, and the programs of the two runs go on alike from related
-- answers, then the two runs end in related states.
import PromFleet.Interleave

namespace prom_fleet.interleave

open Function

variable {Op : Type} {Ans : Op → Type} {ι ε σ α β : Type}

/-! ## Likeness -/

/-- What two runs have in common at each step. -/
structure Likeness (Ans : Op → Type) (ε σ : Type) where
  op : Op → Op → Prop
  ans : (o o' : Op) → Ans o → Ans o' → Prop
  env : ε → ε → Prop
  state : σ → σ → Prop

/-- The two programs do related operations, whatever related answers they get, and end
with values that `Q` relates. -/
def Twin (R : Likeness Ans ε σ) (Q : α → β → Prop) : Prog Ans α → Prog Ans β → Prop
  | .done a, .done b => Q a b
  | .op o k, .op o' k' => R.op o o' ∧ ∀ a b, R.ans o o' a b → Twin R Q (k a) (k' b)
  | _, _ => False

variable {R : Likeness Ans ε σ}

theorem Twin.bind {γ δ : Type} {Q : α → β → Prop} {Q' : γ → δ → Prop} {p : Prog Ans α}
    {p' : Prog Ans β} {f : α → Prog Ans γ} {f' : β → Prog Ans δ} (h : Twin R Q p p')
    (hf : ∀ a b, Q a b → Twin R Q' (f a) (f' b)) : Twin R Q' (p >>= f) (p' >>= f') := by
  induction p generalizing p' with
  | done a =>
    cases p' with
    | done b => exact hf a b h
    | op o' k' => exact h.elim
  | op o k ih =>
    cases p' with
    | done b => exact h.elim
    | op o' k' => exact ⟨h.1, fun a b hab => ih a (h.2 a b hab)⟩

/-! ## Runs -/

/-- Two schedules that move the same programs, in related environments. -/
def Likeness.Schedules (R : Likeness Ans ε σ) : List (ι × ε) → List (ι × ε) → Prop :=
  List.Forall₂ fun l l' => l.1 = l'.1 ∧ R.env l.2 l'.2

variable [DecidableEq ι] {M : Machine Ans ι ε σ}

/-- Two runs that start alike and go on alike end alike. The steps may use what holds of
each state of the first run. -/
theorem run_twin {I : σ → Prop} {Q : α → α → Prop}
    (hstep : ∀ i o o' e e' s s' a t, I s → I t → R.op o o' → R.env e e' → R.state s s' →
      M.act i o e s = some (a, t) →
      ∃ b t', M.act i o' e' s' = some (b, t') ∧ R.ans o o' a b ∧ R.state t t')
    {c c' d d' : Conf Ans ι σ α} {ls ls' : List (ι × ε)} (hs : R.state c.shared c'.shared)
    (hthreads : ∀ j, Twin R Q (c.thread j) (c'.thread j))
    (hI : ∀ ls₁ ls₂ x, ls = ls₁ ++ ls₂ → run M c ls₁ = some x → run M x ls₂ = some d → I x.shared)
    (hls : R.Schedules ls ls') (hrun : run M c ls = some d) (hrun' : run M c' ls' = some d') :
    R.state d.shared d'.shared := by
  induction hls generalizing c c' with
  | nil =>
    cases hrun
    cases hrun'
    exact hs
  | @cons l l' ls ls' hl _ ih =>
    obtain ⟨x, hx, hrest⟩ := run_cons.mp hrun
    obtain ⟨x', hx', hrest'⟩ := run_cons.mp hrun'
    obtain ⟨o, k, a, hk, ha, hthr⟩ := step_cases hx
    obtain ⟨o', k', a', hk', ha', hthr'⟩ := step_cases hx'
    obtain ⟨hsame, henv⟩ := hl
    rw [← hsame] at hk' ha' hthr'
    have htwin := hthreads l.1
    rw [hk, hk'] at htwin
    have hfirst : I c.shared := hI [] (l :: ls) c rfl rfl hrun
    have hnext : ∀ ls₁ ls₂ y, ls = ls₁ ++ ls₂ → run M x ls₁ = some y → run M y ls₂ = some d →
        I y.shared := by
      intro ls₁ ls₂ y hsplit hy hd
      exact hI (l :: ls₁) ls₂ y (by rw [hsplit]; rfl) (run_cons.mpr ⟨x, hx, hy⟩) hd
    obtain ⟨b, t', hb, hab, ht⟩ := hstep l.1 o o' l.2 l'.2 c.shared c'.shared a x.shared
      hfirst (hnext [] ls x rfl rfl hrest) htwin.1 henv hs ha
    -- the second run is what the step gives, as an operation has one outcome
    rw [ha'] at hb
    cases hb
    refine ih ht (fun j => ?_) hnext hrest hrest'
    rw [hthr, hthr']
    by_cases hj : j = l.1
    · subst hj
      rw [update_self, update_self]
      exact htwin.2 a a' hab
    · rw [update_of_ne hj, update_of_ne hj]
      exact hthreads j

end prom_fleet.interleave
