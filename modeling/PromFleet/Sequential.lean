-- One program that runs alone: it takes its environment step by step from a supply, and
-- a rule of total correctness says that it comes to its end and how.
import PromFleet.Interleave

namespace prom_fleet.interleave

variable {Op : Type} {Ans : Op → Type} {ε σ α β : Type}

/-! ## Execution -/

/-- The program alone from the state `s`, with the environments of `env` from number `n`
on: its value, the number of the next environment and the state at its end. -/
def exec (M : Machine Ans Unit ε σ) (env : Nat → ε) : Prog Ans α → Nat → σ → Option (α × Nat × σ)
  | .done a, n, s => some (a, n, s)
  | .op o k, n, s =>
    match M.act () o (env n) s with
    | none => none
    | some (a, t) => exec M env (k a) (n + 1) t

variable {M : Machine Ans Unit ε σ} {env : Nat → ε} {a : α} {p : Prog Ans α} {s : σ}

/-- An execution takes its environments from its own steps, and has some unless it is over. -/
theorem exec_steps {n n' : Nat} {t : σ} (h : exec M env p n s = some (a, n', t)) :
    (p = .done a ∨ n < n') ∧ ∀ env' : Nat → ε, (∀ m, n ≤ m → m < n' → env' m = env m) →
      exec M env' p n s = some (a, n', t) := by
  induction p generalizing n s with
  | done b =>
    cases h
    exact ⟨.inl rfl, fun _ _ => rfl⟩
  | op o k ih =>
    unfold exec at h
    cases hact : M.act () o (env n) s with
    | none => simp [hact] at h
    | some x =>
      rw [hact] at h
      obtain ⟨hover, hsame⟩ := ih x.1 h
      have hlt : n < n' := by
        rcases hover with hdone | hlt
        · simp only [hdone, exec, Option.some.injEq, Prod.mk.injEq] at h
          omega
        · omega
      refine ⟨.inr hlt, fun env' henv => ?_⟩
      unfold exec
      rw [henv n (Nat.le_refl n) hlt, hact]
      exact hsame env' fun m hm => henv m (by omega)

/-! ## Total correctness -/

/-- Whatever environments the program meets, as long as each is `ok`, it never has to
wait, and it ends with a value and a state that `Q` allows. -/
def Ends (M : Machine Ans Unit ε σ) (ok : ε → Prop) :
    Prog Ans α → (α → σ → Prop) → σ → Prop
  | .done a, Q, s => Q a s
  | .op o k, Q, s => ∀ e, ok e → ∃ a t, M.act () o e s = some (a, t) ∧ Ends M ok (k a) Q t

variable {ok : ε → Prop} {Q : α → σ → Prop}

theorem Ends.done (h : Q a s) : Ends M ok (.done a) Q s := h

theorem Ends.mono {Q' : α → σ → Prop} (h : Ends M ok p Q s) (hq : ∀ a t, Q a t → Q' a t) :
    Ends M ok p Q' s := by
  induction p generalizing s with
  | done a => exact hq a s h
  | op o k ih =>
    intro e he
    obtain ⟨a, t, hact, hrest⟩ := h e he
    exact ⟨a, t, hact, ih a hrest⟩

theorem Ends.bind {f : α → Prog Ans β} {Q : β → σ → Prop}
    (h : Ends M ok p (fun a t => Ends M ok (f a) Q t) s) : Ends M ok (p >>= f) Q s := by
  induction p generalizing s with
  | done a => exact h
  | op o k ih =>
    intro e he
    obtain ⟨a, t, hact, hrest⟩ := h e he
    exact ⟨a, t, hact, ih a hrest⟩

/-- A program that ends under every environment ends under a supply of them. -/
theorem exec_of_ends (h : Ends M ok p Q s) (henv : ∀ n, ok (env n)) (n : Nat) :
    ∃ a n' t, exec M env p n s = some (a, n', t) ∧ Q a t := by
  induction p generalizing n s with
  | done a => exact ⟨a, n, s, rfl, h⟩
  | op o k ih =>
    obtain ⟨a, t, hact, hrest⟩ := h (env n) (henv n)
    obtain ⟨b, n', u, hexec, hq⟩ := ih a hrest (n + 1)
    exact ⟨b, n', u, by simp [exec, hact, hexec], hq⟩

end prom_fleet.interleave
