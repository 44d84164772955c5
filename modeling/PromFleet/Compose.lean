-- Machines that are put together: two machines side by side, whose programs use
-- the operations of both, and a machine with a clock that does not go back.
import PromFleet.Interleave

namespace prom_fleet.interleave

variable {Op₁ Op₂ : Type} {Ans₁ : Op₁ → Type} {Ans₂ : Op₂ → Type} {ι ε σ₁ σ₂ α β : Type}

/-! ## Two machines side by side -/

/-- The answers to the operations of two components. -/
abbrev Either (Ans₁ : Op₁ → Type) (Ans₂ : Op₂ → Type) : Op₁ ⊕ Op₂ → Type
  | .inl o => Ans₁ o
  | .inr o => Ans₂ o

/-- A program of the first component as one of both. -/
def Prog.inl : Prog Ans₁ α → Prog (Either Ans₁ Ans₂) α
  | .done a => .done a
  | .op o k => .op (.inl o) fun x => (k x).inl

/-- A program of the second component as one of both. -/
def Prog.inr : Prog Ans₂ α → Prog (Either Ans₁ Ans₂) α
  | .done a => .done a
  | .op o k => .op (.inr o) fun x => (k x).inr

@[simp] theorem Prog.inl_call (o : Op₁) :
    (Prog.call o : Prog Ans₁ (Ans₁ o)).inl =
      (Prog.call (Sum.inl o) : Prog (Either Ans₁ Ans₂) (Ans₁ o)) := rfl

@[simp] theorem Prog.inr_call (o : Op₂) :
    (Prog.call o : Prog Ans₂ (Ans₂ o)).inr =
      (Prog.call (Sum.inr o) : Prog (Either Ans₁ Ans₂) (Ans₂ o)) := rfl

theorem Prog.inl_bind (p : Prog Ans₁ α) (f : α → Prog Ans₁ β) :
    (p >>= f).inl = (p.inl >>= fun a => (f a).inl : Prog (Either Ans₁ Ans₂) β) := by
  induction p with
  | done a => rfl
  | op o k ih =>
    rw [Prog.op_bind, Prog.inl, Prog.inl, Prog.op_bind]
    congr 1
    funext x
    exact ih x

/-- Each component acts on its own part of the state. -/
def Machine.sum (M₁ : Machine Ans₁ ι ε σ₁) (M₂ : Machine Ans₂ ι ε σ₂) :
    Machine (Either Ans₁ Ans₂) ι ε (σ₁ × σ₂) where
  act i
    | .inl o, e, s => (M₁.act i o e s.1).map fun r => (r.1, (r.2, s.2))
    | .inr o, e, s => (M₂.act i o e s.2).map fun r => (r.1, (s.1, r.2))

variable {M₁ : Machine Ans₁ ι ε σ₁} {M₂ : Machine Ans₂ ι ε σ₂} {i : ι} {e : ε} {s t : σ₁ × σ₂}

theorem sum_inl {o : Op₁} {a : Ans₁ o} (h : (M₁.sum M₂).act i (.inl o) e s = some (a, t)) :
    M₁.act i o e s.1 = some (a, t.1) ∧ t.2 = s.2 := by
  obtain ⟨⟨a', u⟩, hu, hat⟩ := Option.map_eq_some_iff.mp h
  cases hat
  exact ⟨hu, rfl⟩

theorem sum_inr {o : Op₂} {a : Ans₂ o} (h : (M₁.sum M₂).act i (.inr o) e s = some (a, t)) :
    M₂.act i o e s.2 = some (a, t.2) ∧ t.1 = s.1 := by
  obtain ⟨⟨a', u⟩, hu, hat⟩ := Option.map_eq_some_iff.mp h
  cases hat
  exact ⟨hu, rfl⟩

/-- A program of the first component does side by side with the second what it
does alone, under a pact that asks of its steps no more than its own pact gives. -/
theorem Holds.inl {P₁ : Pact Op₁ ι ε σ₁} {P : Pact (Op₁ ⊕ Op₂) ι ε (σ₁ × σ₂)}
    (hinv : ∀ s, P.inv s → P₁.inv s.1) (hrely : ∀ s t, P.rely i s t → P₁.rely i s.1 t.1)
    (hcond : ∀ o e s, P.inv s → P.cond i (.inl o) e s → P₁.cond i o e s.1)
    (hstep : ∀ s u, P.inv s → P₁.inv u → P₁.guar i s.1 u → P.inv (u, s.2) ∧ P.guar i s (u, s.2))
    {p : Prog Ans₁ α} {Q : α → σ₁ → Prop} (h : Holds M₁ P₁ i p Q s.1) :
    Holds (M₁.sum M₂) P i p.inl (fun a t => Q a t.1) s := by
  induction p generalizing s with
  | done a => exact fun t ht hi => h t.1 (hrely s t ht) (hinv t hi)
  | op o k ih =>
    intro t ht hi e he a u hu
    obtain ⟨hact, hsame⟩ := sum_inl hu
    obtain ⟨h1, h2, h3⟩ := h t.1 (hrely s t ht) (hinv t hi) e (hcond o e t hi he) a u.1 hact
    have hnext : P.inv u ∧ P.guar i t u := by
      have hu' : u = (u.1, t.2) := Prod.ext rfl hsame
      rw [hu']
      exact hstep t u.1 hi h1 h2
    exact ⟨hnext.1, hnext.2, ih a h3⟩

/-! ## A clock -/

section Clock

variable {Op : Type} {Ans : Op → Type} {σ τ : Type} [LE τ] [DecidableLE τ]

/-- The machine beside a clock that each step moves to its own reading. A step
whose reading has passed does not happen. -/
def Machine.clocked (M : Machine Ans ι ε σ) (now : ε → τ) : Machine Ans ι ε (τ × σ) where
  act i o e s :=
    if s.1 ≤ now e then (M.act i o e s.2).map fun r => (r.1, (now e, r.2)) else none

theorem clocked_act {M : Machine Ans ι ε σ} {now : ε → τ} {o : Op} {a : Ans o}
    {s t : τ × σ} (h : (M.clocked now).act i o e s = some (a, t)) :
    s.1 ≤ t.1 ∧ t.1 = now e ∧ M.act i o e s.2 = some (a, t.2) := by
  unfold Machine.clocked at h
  simp only at h
  split at h
  · rename_i hle
    obtain ⟨⟨a', u⟩, hu, hat⟩ := Option.map_eq_some_iff.mp h
    cases hat
    exact ⟨hle, rfl, hu⟩
  · cases h

end Clock

end prom_fleet.interleave
