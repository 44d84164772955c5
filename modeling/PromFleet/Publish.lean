-- Values that programs publish some steps after they have read them: a signal shows the
-- value of the state, or some program still owes it a publication.
import PromFleet.History

namespace prom_fleet.publish

open interleave

variable {Op : Type} {Ans : Op → Type} {ι ε σ α μ R : Type} [DecidableEq ι]
variable {M : Machine Ans ι ε σ} {next : μ → (o : Op) → Ans o → μ} {m₀ : μ}

/-! ## What a program still knows -/

/-- Since the last reading of program `i` nobody has done an operation that changes what was
read. -/
def fresh (reads changes : Op → Bool) (i : ι) (log : List (ι × Event Ans ε σ)) : Bool :=
  log.foldl (fun f x => if x.1 = i ∧ reads x.2.op then true else f && !changes x.2.op) false

variable {reads changes : Op → Bool}

theorem fresh_concat (i j : ι) (log : List (ι × Event Ans ε σ)) (ev : Event Ans ε σ) :
    fresh reads changes i (log ++ [(j, ev)]) =
      if j = i ∧ reads ev.op then true else fresh reads changes i log && !changes ev.op := by
  simp [fresh]

/-- A value that a program has read is the one of the state as long as its reading is fresh.
`known m r` says that the operations that have come to `m` have read `r`. -/
def Current (reads changes : Op → Bool) (next : μ → (o : Op) → Ans o → μ) (m₀ : μ)
    (known : μ → R → Prop) (value : σ → R) (s : σ × List (ι × Event Ans ε σ)) : Prop :=
  ∀ i r, fresh reads changes i s.2 = true → known (outcome next m₀ (own i s.2)) r → value s.1 = r

variable {known : μ → R → Prop} {value : σ → R} {e : ε} {i : ι} {s t : σ × List (ι × Event Ans ε σ)}

theorem Current.step {o : Op} {a : Ans o} (hread : reads o = true →
      ∀ r, known (next (outcome next m₀ (own i s.2)) o a) r → value t.1 = r)
    (hkeep : reads o = false →
      ∀ r, known (next (outcome next m₀ (own i s.2)) o a) r → known (outcome next m₀ (own i s.2)) r)
    (hvalue : changes o = false → value t.1 = value s.1)
    (hact : M.recorded.act i o e s = some (a, t)) (hs : Current reads changes next m₀ known value s)
    : Current reads changes next m₀ known value t := by
  obtain ⟨_, hlog⟩ := recorded_act hact
  intro j r hfresh hknown
  rw [hlog] at hfresh hknown
  rw [fresh_concat] at hfresh
  by_cases hj : i = j
  · subst hj
    rw [own_append_self, outcome_concat] at hknown
    cases hr : reads o with
    | true => exact hread hr r hknown
    | false =>
      simp only [hr, Bool.false_eq_true, and_false, if_false, Bool.and_eq_true,
        Bool.not_eq_true'] at hfresh
      rw [hvalue hfresh.2]
      exact hs i r hfresh.1 (hkeep hr r hknown)
  · rw [own_append_of_ne hj] at hknown
    simp only [hj, false_and, if_false, Bool.and_eq_true, Bool.not_eq_true'] at hfresh
    rw [hvalue hfresh.2]
    exact hs j r hfresh.1 hknown

/-! ## What a signal shows -/

variable {V : Type} {owing : μ → Prop} {shown wanted : σ → V}

/-- The signal shows what it should, or some program owes it a publication. -/
def Owed (next : μ → (o : Op) → Ans o → μ) (m₀ : μ) (owing : μ → Prop) (shown wanted : σ → V)
    (s : σ × List (ι × Event Ans ε σ)) : Prop :=
  shown s.1 = wanted s.1 ∨ ∃ i, owing (outcome next m₀ (own i s.2))

/-- A step leaves its program owing, or the signal right, or everything as it was. -/
def Settles (next : μ → (o : Op) → Ans o → μ) (owing : μ → Prop) (shown wanted : σ → V) (m : μ)
    (o : Op) (a : Ans o) (s t : σ) : Prop :=
  owing (next m o a) ∨ shown t = wanted t ∨
    shown t = shown s ∧ wanted t = wanted s ∧ (owing m → owing (next m o a))

theorem Owed.step {o : Op} {a : Ans o}
    (hstep : Settles next owing shown wanted (outcome next m₀ (own i s.2)) o a s.1 t.1)
    (hact : M.recorded.act i o e s = some (a, t)) (hs : Owed next m₀ owing shown wanted s) :
    Owed next m₀ owing shown wanted t := by
  obtain ⟨_, hlog⟩ := recorded_act hact
  have hself : outcome next m₀ (own i t.2) = next (outcome next m₀ (own i s.2)) o a := by
    rw [hlog, own_append_self, outcome_concat]
  rcases hstep with howes | hright | ⟨hshown, hwanted, hkept⟩
  · exact .inr ⟨i, hself ▸ howes⟩
  · exact .inl hright
  rcases hs with hs | ⟨j, hj⟩
  · exact .inl (by rw [hshown, hwanted, hs])
  refine .inr ⟨j, ?_⟩
  by_cases hij : i = j
  · subst hij
    rw [hself]
    exact hkept hj
  · rw [hlog, own_append_of_ne hij]
    exact hj

end prom_fleet.publish
