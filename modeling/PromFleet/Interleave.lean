-- Programs that share a state. Each program is a chain of atomic operations,
-- a scheduler picks the program that moves next, and a rely-guarantee rule
-- carries what each program promises through every interleaving.
import Mathlib.Data.List.Basic

namespace prom_fleet.interleave

open Function

variable {Op : Type} {Ans : Op → Type} {ι ε σ α β γ : Type}

/-! ## Programs -/

/-- A program that is done with a value, or that asks for one atomic operation
and goes on with its answer. -/
inductive Prog (Ans : Op → Type) (α : Type) : Type where
  | done (a : α) : Prog Ans α
  | op (o : Op) (k : Ans o → Prog Ans α) : Prog Ans α

namespace Prog

def bind : Prog Ans α → (α → Prog Ans β) → Prog Ans β
  | .done a, f => f a
  | .op o k, f => .op o fun x => (k x).bind f

instance : Monad (Prog Ans) where
  pure := .done
  bind := Prog.bind

/-- The program of one operation. -/
def call (o : Op) : Prog Ans (Ans o) := .op o .done

@[simp] theorem pure_eq (a : α) : (pure a : Prog Ans α) = .done a := rfl

@[simp] theorem done_bind (a : α) (f : α → Prog Ans β) : (Prog.done a >>= f) = f a := rfl

@[simp] theorem op_bind (o : Op) (k : Ans o → Prog Ans α) (f : α → Prog Ans β) :
    (Prog.op o k >>= f) = .op o fun x => k x >>= f := rfl

@[simp] theorem call_bind (o : Op) (f : Ans o → Prog Ans β) : (call o >>= f) = .op o f := rfl

theorem bind_assoc (p : Prog Ans α) (f : α → Prog Ans β) (g : β → Prog Ans γ) :
    (p >>= f) >>= g = p >>= fun a => f a >>= g := by
  induction p with
  | done a => rfl
  | op o k ih =>
    rw [op_bind, op_bind, op_bind]
    congr 1
    funext x
    exact ih x

end Prog

/-! ## The machine -/

/-- What each operation does: `act i o e s` is the answer that program `i` gets for `o` in the
state `s`, and the state after it. `e` is what the environment decides: a clock reading, a lost
request. `none` means that the operation has to wait. -/
structure Machine (Ans : Op → Type) (ι ε σ : Type) where
  act : ι → (o : Op) → ε → σ → Option (Ans o × σ)

/-- The shared state and the rest of each program. -/
structure Conf (Ans : Op → Type) (ι σ α : Type) where
  shared : σ
  thread : ι → Prog Ans α

/-! ## Rely and guarantee -/

/-- What the programs of a system owe each other. Every state between two steps keeps `inv`.
Program `i` moves the state as `guar i` says, and what the others do is in `rely i`. -/
structure Pact (Op ι ε σ : Type) where
  inv : σ → Prop
  cond : ι → Op → ε → σ → Prop
  rely : ι → σ → σ → Prop
  guar : ι → σ → σ → Prop
  rely_refl : ∀ i s, rely i s s
  rely_trans : ∀ i s t u, rely i s t → rely i t u → rely i s u
  rely_of_guar : ∀ i j s t, i ≠ j → inv s → inv t → guar i s t → rely j s t

/-- Program `p` of `i`, from the state `s`, keeps the pact at each of its
steps, and ends with a value and a state that `Q` allows. -/
def Holds (M : Machine Ans ι ε σ) (P : Pact Op ι ε σ) (i : ι) :
    Prog Ans α → (α → σ → Prop) → σ → Prop
  | .done a, Q, s => ∀ t, P.rely i s t → P.inv t → Q a t
  | .op o k, Q, s =>
    ∀ t, P.rely i s t → P.inv t → ∀ e, P.cond i o e t →
      ∀ a u, M.act i o e t = some (a, u) →
        P.inv u ∧ P.guar i t u ∧ Holds M P i (k a) Q u

variable {M : Machine Ans ι ε σ} {P : Pact Op ι ε σ} {i : ι} {Q : α → σ → Prop} {p : Prog Ans α}
  {s : σ}

theorem Holds.stable {t : σ} (h : Holds M P i p Q s) (hr : P.rely i s t) : Holds M P i p Q t := by
  cases p with
  | done | op => exact fun u hu => h u (P.rely_trans i s t u hr hu)

variable {Q' : α → σ → Prop}

theorem Holds.mono (h : Holds M P i p Q s)
    (hq : ∀ a t, P.inv t → Q a t → Q' a t) : Holds M P i p Q' s := by
  induction p generalizing s with
  | done a => exact fun t ht hi => hq a t hi (h t ht hi)
  | op o k ih =>
    intro t ht hi e he a u hu
    obtain ⟨h1, h2, h3⟩ := h t ht hi e he a u hu
    exact ⟨h1, h2, ih a h3⟩

variable {f : α → Prog Ans β}

theorem Holds.bind {Q : β → σ → Prop} (hs : P.inv s)
    (h : Holds M P i p (fun a t => Holds M P i (f a) Q t) s) : Holds M P i (p >>= f) Q s := by
  induction p generalizing s with
  | done a => exact h s (P.rely_refl i s) hs
  | op o k ih =>
    intro t ht hi e he a u hu
    obtain ⟨h1, h2, h3⟩ := h t ht hi e he a u hu
    exact ⟨h1, h2, ih a h1 h3⟩

theorem Holds.seq {R : β → σ → Prop} (h : Holds M P i p Q s) (hs : P.inv s)
    (hf : ∀ a t, P.inv t → Q a t → Holds M P i (f a) R t) : Holds M P i (p >>= f) R s :=
  .bind hs (h.mono hf)

theorem Holds.map {f : α → β} {Q : β → σ → Prop} (h : Holds M P i p (fun a => Q (f a)) s) :
    Holds M P i (p >>= fun a => Prog.done (f a)) Q s := by
  induction p generalizing s with
  | done a => exact h
  | op o k ih =>
    intro t ht hi e he a u hu
    obtain ⟨h1, h2, h3⟩ := h t ht hi e he a u hu
    exact ⟨h1, h2, ih a h3⟩

/-- A fact that no step takes away still holds at the end of a program. -/
theorem Holds.frame {F : σ → Prop} (hrely : ∀ s t, P.rely i s t → F s → F t)
    (hguar : ∀ s t, P.guar i s t → F s → F t) (hs : F s) (h : Holds M P i p Q s) :
    Holds M P i p (fun a t => Q a t ∧ F t) s := by
  induction p generalizing s with
  | done a => exact fun t ht hi => ⟨h t ht hi, hrely s t ht hs⟩
  | op o k ih =>
    intro t ht hi e he a u hu
    obtain ⟨h1, h2, h3⟩ := h t ht hi e he a u hu
    exact ⟨h1, h2, ih a (hguar t u h2 (hrely s t ht hs)) h3⟩

variable {a : α}

theorem Holds.done (h : ∀ t, P.rely i s t → P.inv t → Q a t) : Holds M P i (.done a) Q s := h

/-- The same pact for runs whose steps meet another condition. -/
def Pact.withCond (P : Pact Op ι ε σ) (C : ι → Op → ε → σ → Prop) : Pact Op ι ε σ :=
  { P with cond := C }

variable {C : ι → Op → ε → σ → Prop}

theorem Holds.withCond (hC : ∀ i o e s, C i o e s → P.cond i o e s) (h : Holds M P i p Q s) :
    Holds M (P.withCond C) i p Q s := by
  induction p generalizing s with
  | done a => exact h
  | op o k ih =>
    intro t ht hi e he a u hu
    obtain ⟨h1, h2, h3⟩ := h t ht hi e (hC i o e t he) a u hu
    exact ⟨h1, h2, ih a h3⟩

/-! ## Programs that can fail -/

section Fail

variable {φ : Type}

/-- If program `x` of `i` succeeds from the state `s`, its value and its last
state are ones that `Q` allows. Either way it keeps the pact. -/
def Succeeds (M : Machine Ans ι ε σ) (P : Pact Op ι ε σ) (i : ι) (x : ExceptT φ (Prog Ans) α)
    (Q : α → σ → Prop) (s : σ) : Prop :=
  Holds M P i x.run (fun r t => ∀ a, r = .ok a → Q a t) s

variable {Q : α → σ → Prop} {s : σ}

theorem Succeeds.pure (h : ∀ t, P.rely i s t → P.inv t → Q a t) :
    Succeeds M P i (pure a : ExceptT φ (Prog Ans) α) Q s := by
  intro t ht hi b hb
  cases hb
  exact h t ht hi

theorem Succeeds.throw (e : φ) (Q : α → σ → Prop) (s : σ) :
    Succeeds M P i (throw e : ExceptT φ (Prog Ans) α) Q s := by
  intro t _ _ b hb
  cases hb

variable {x : ExceptT φ (Prog Ans) α}

theorem Succeeds.mono (h : Succeeds M P i x Q s)
    (hq : ∀ a t, P.inv t → Q a t → Q' a t) : Succeeds M P i x Q' s :=
  Holds.mono h fun _ t hi hr a ha => hq a t hi (hr a ha)

theorem Succeeds.frame {F : σ → Prop} (hrely : ∀ s t, P.rely i s t → F s → F t)
    (hguar : ∀ s t, P.guar i s t → F s → F t) (hs : F s) (h : Succeeds M P i x Q s) :
    Succeeds M P i x (fun a t => Q a t ∧ F t) s :=
  Holds.mono (Holds.frame hrely hguar hs h) fun _ _ _ hr a ha => ⟨hr.1 a ha, hr.2⟩

variable {f : α → ExceptT φ (Prog Ans) β}

theorem Succeeds.bind {Q : β → σ → Prop} (hs : P.inv s)
    (h : Succeeds M P i x (fun a t => Succeeds M P i (f a) Q t) s) :
    Succeeds M P i (x >>= f) Q s := by
  unfold Succeeds
  refine .seq h hs fun r t _ hr => ?_
  cases r with
  | ok a => exact hr a rfl
  | error e => exact fun _ _ _ b hb => by cases hb

theorem Succeeds.seq {R : β → σ → Prop} (h : Succeeds M P i x Q s)
    (hs : P.inv s) (hf : ∀ a t, P.inv t → Q a t → Succeeds M P i (f a) R t) :
    Succeeds M P i (x >>= f) R s :=
  .bind hs (h.mono hf)

theorem Succeeds.lift {o : Op} {Q : Ans o → σ → Prop}
    (h : ∀ t, P.rely i s t → P.inv t → ∀ e, P.cond i o e t → ∀ a u, M.act i o e t = some (a, u) →
      P.inv u ∧ P.guar i t u ∧ ∀ v, P.rely i u v → P.inv v → Q a v) :
    Succeeds M P i (ExceptT.lift (Prog.call o) : ExceptT φ (Prog Ans) (Ans o)) Q s := by
  intro t ht hi e he a u hu
  obtain ⟨h1, h2, h3⟩ := h t ht hi e he a u hu
  refine ⟨h1, h2, fun v hv hiv b hb => ?_⟩
  cases hb
  exact h3 v hv hiv

end Fail

/-! ## Runs -/

variable [DecidableEq ι]

/-- Program `l.1` does its next operation with the environment `l.2`. -/
def step (M : Machine Ans ι ε σ) (c : Conf Ans ι σ α) (l : ι × ε) : Option (Conf Ans ι σ α) :=
  match c.thread l.1 with
  | .done _ => none
  | .op o k =>
    (M.act l.1 o l.2 c.shared).map fun r =>
      { shared := r.2, thread := update c.thread l.1 (k r.1) }

/-- The state after a schedule, if each of its steps can be done. -/
def run (M : Machine Ans ι ε σ) : Conf Ans ι σ α → List (ι × ε) → Option (Conf Ans ι σ α)
  | c, [] => some c
  | c, l :: ls => (step M c l).bind fun c' => run M c' ls

/-- Each step of the schedule meets the condition `C` in the state before it. -/
def Meets (M : Machine Ans ι ε σ) (C : ι → Op → ε → σ → Prop) :
    Conf Ans ι σ α → List (ι × ε) → Prop
  | _, [] => True
  | c, l :: ls =>
    (∀ o k, c.thread l.1 = .op o k → C l.1 o l.2 c.shared) ∧
      ∀ c', step M c l = some c' → Meets M C c' ls

variable {c c' : Conf Ans ι σ α} {l : ι × ε}

theorem step_cases (h : step M c l = some c') :
    ∃ o k a, c.thread l.1 = .op o k ∧ M.act l.1 o l.2 c.shared = some (a, c'.shared) ∧
      c'.thread = update c.thread l.1 (k a) := by
  unfold step at h
  split at h
  · cases h
  rename_i o k hk
  rw [Option.map_eq_some_iff] at h
  obtain ⟨⟨a, s⟩, ha, hc⟩ := h
  subst hc
  exact ⟨o, k, a, hk, ha, rfl⟩

@[simp] theorem run_nil (c : Conf Ans ι σ α) : run M c [] = some c := rfl

variable {ls : List (ι × ε)}

theorem run_cons :
    run M c (l :: ls) = some c' ↔ ∃ d, step M c l = some d ∧ run M d ls = some c' := by
  simp only [run, Option.bind_eq_some_iff]

variable {ls' : List (ι × ε)}

theorem run_append :
    run M c (ls ++ ls') = some c' ↔ ∃ d, run M c ls = some d ∧ run M d ls' = some c' := by
  induction ls generalizing c with
  | nil => simp
  | cons l ls ih =>
    rw [List.cons_append, run_cons]
    constructor
    · rintro ⟨d, hd, h⟩
      obtain ⟨d', hd', h'⟩ := ih.mp h
      exact ⟨d', run_cons.mpr ⟨d, hd, hd'⟩, h'⟩
    · rintro ⟨d', h, h'⟩
      obtain ⟨d, hd, hd'⟩ := run_cons.mp h
      exact ⟨d, hd, ih.mpr ⟨d', hd', h'⟩⟩

theorem meets_true (c : Conf Ans ι σ α) (ls : List (ι × ε)) :
    Meets M (fun _ _ _ _ => True) c ls := by
  induction ls generalizing c with
  | nil => trivial
  | cons l ls ih => exact ⟨fun _ _ _ => trivial, fun c' _ => ih c'⟩

variable {D : ι → Op → ε → σ → Prop}

theorem Meets.mono (hCD : ∀ i o e s, C i o e s → D i o e s) (h : Meets M C c ls) :
    Meets M D c ls := by
  induction ls generalizing c with
  | nil => trivial
  | cons l ls ih => exact ⟨fun o k hk => hCD _ _ _ _ (h.1 o k hk), fun c' hc' => ih (h.2 c' hc')⟩

theorem Meets.and (hC : Meets M C c ls) (hD : Meets M D c ls) :
    Meets M (fun i o e s => C i o e s ∧ D i o e s) c ls := by
  induction ls generalizing c with
  | nil => trivial
  | cons l ls ih =>
    refine ⟨fun o k hk => ⟨hC.1 o k hk, hD.1 o k hk⟩, fun c' hc' => ?_⟩
    exact ih (hC.2 c' hc') (hD.2 c' hc')

variable {I : σ → Prop}

/-- What each operation keeps, as long as it meets the condition, holds before each step. -/
theorem Meets.keeps (hI : ∀ i o e s a t, C i o e s → I s → M.act i o e s = some (a, t) → I t)
    (h : I c.shared) (hc : Meets M C c ls) : Meets M (fun i o e s => C i o e s ∧ I s) c ls := by
  induction ls generalizing c with
  | nil => trivial
  | cons l ls ih =>
    refine ⟨fun o k hk => ⟨hc.1 o k hk, h⟩, fun d hd => ?_⟩
    obtain ⟨o, k, a, hk, ha, _⟩ := step_cases hd
    exact ih (hI l.1 o l.2 c.shared a d.shared (hc.1 o k hk) h ha) (hc.2 d hd)

/-- `Meets` for a condition that can be decided. -/
def check (M : Machine Ans ι ε σ) (C : ι → Op → ε → σ → Prop)
    [∀ i o e s, Decidable (C i o e s)] : Conf Ans ι σ α → List (ι × ε) → Bool
  | _, [] => true
  | c, l :: ls =>
    (match c.thread l.1 with
      | .done _ => true
      | .op o _ => decide (C l.1 o l.2 c.shared)) &&
    match step M c l with
      | none => true
      | some c' => check M C c' ls

theorem check_iff (C : ι → Op → ε → σ → Prop) [∀ i o e s, Decidable (C i o e s)]
    (c : Conf Ans ι σ α) (ls : List (ι × ε)) : check M C c ls = true ↔ Meets M C c ls := by
  induction ls generalizing c with
  | nil => simp [check, Meets]
  | cons l ls ih =>
    rw [check, Meets, Bool.and_eq_true]
    refine and_congr ?_ ?_
    · cases c.thread l.1 with
      | done a => simp
      | op o k =>
        simp only [decide_eq_true_eq, Prog.op.injEq]
        constructor
        · rintro h o' k' ⟨rfl, _⟩
          exact h
        · intro h
          exact h o k ⟨rfl, HEq.rfl⟩
    · cases step M c l with
      | none => simp
      | some c' => simp [ih]

instance (C : ι → Op → ε → σ → Prop) [∀ i o e s, Decidable (C i o e s)] (c : Conf Ans ι σ α)
    (ls : List (ι × ε)) : Decidable (Meets M C c ls) :=
  decidable_of_iff _ (check_iff C c ls)

theorem meets_append {d : Conf Ans ι σ α} (hm : Meets M C c (ls ++ ls')) (hr : run M c ls = some d)
    : Meets M C c ls ∧ Meets M C d ls' := by
  induction ls generalizing c with
  | nil => cases hr; exact ⟨trivial, hm⟩
  | cons l ls ih =>
    obtain ⟨c', hc', hr'⟩ := run_cons.mp hr
    obtain ⟨h1, h2⟩ := ih (hm.2 c' hc') hr'
    refine ⟨⟨hm.1, fun c'' hc'' => ?_⟩, h2⟩
    rw [hc'] at hc''
    cases hc''
    exact h1

def numbered {n : Nat} (is : List Nat) : List (Fin n) :=
  is.filterMap fun i => if h : i < n then some ⟨i, h⟩ else none

/-! ## What a run keeps -/

/-- What each operation keeps, as long as it meets the condition, a run keeps. -/
theorem run_keeps (hI : ∀ i o e s a t, C i o e s → I s → M.act i o e s = some (a, t) → I t)
    (h : I c.shared) (hc : Meets M C c ls) (hr : run M c ls = some c') : I c'.shared := by
  induction ls generalizing c with
  | nil => cases hr; exact h
  | cons l ls ih =>
    obtain ⟨d, hd, hr'⟩ := run_cons.mp hr
    obtain ⟨o, k, a, hk, ha, _⟩ := step_cases hd
    exact ih (hI l.1 o l.2 c.shared a d.shared (hc.1 o k hk) h ha) (hc.2 d hd) hr'

theorem step_holds {Q : ι → α → σ → Prop} (hinv : P.inv c.shared)
    (h : ∀ j, Holds M P j (c.thread j) (Q j) c.shared)
    (hc : ∀ o k, c.thread l.1 = .op o k → P.cond l.1 o l.2 c.shared) (hs : step M c l = some c') :
    P.inv c'.shared ∧ P.guar l.1 c.shared c'.shared ∧
      ∀ j, Holds M P j (c'.thread j) (Q j) c'.shared := by
  obtain ⟨o, k, a, hk, ha, hthr⟩ := step_cases hs
  have hi := h l.1
  rw [hk] at hi
  obtain ⟨h1, h2, h3⟩ := hi c.shared (P.rely_refl _ _) hinv l.2 (hc o k hk) a c'.shared ha
  refine ⟨h1, h2, fun j => ?_⟩
  rw [hthr]
  by_cases hj : j = l.1
  · subst hj
    rw [update_self]
    exact h3
  · rw [update_of_ne hj]
    exact (h j).stable (P.rely_of_guar l.1 j _ _ (Ne.symm hj) hinv h1 h2)

/-- Every schedule keeps what every program holds. -/
theorem run_holds {Q : ι → α → σ → Prop} (hinv : P.inv c.shared)
    (h : ∀ j, Holds M P j (c.thread j) (Q j) c.shared) (hc : Meets M P.cond c ls)
    (hr : run M c ls = some c') :
    P.inv c'.shared ∧ ∀ j, Holds M P j (c'.thread j) (Q j) c'.shared := by
  induction ls generalizing c with
  | nil => cases hr; exact ⟨hinv, h⟩
  | cons l ls ih =>
    obtain ⟨d, hd, hr'⟩ := run_cons.mp hr
    obtain ⟨h1, _, h3⟩ := step_holds hinv h hc.1 hd
    exact ih h1 h3 (hc.2 d hd) hr'

/-- A program that a schedule has brought to its end ends as it promised. -/
theorem done_of_run {Q : ι → α → σ → Prop} (hinv : P.inv c.shared)
    (h : ∀ j, Holds M P j (c.thread j) (Q j) c.shared) (hc : Meets M P.cond c ls)
    (hr : run M c ls = some c') (hd : c'.thread i = .done a) : Q i a c'.shared := by
  obtain ⟨h1, h2⟩ := run_holds hinv h hc hr
  have hi := h2 i
  rw [hd] at hi
  exact hi c'.shared (P.rely_refl _ _) h1

def solo (p : Prog Ans α) (s : σ) : Conf Ans Unit σ α := { shared := s, thread := fun _ => p }

/-- The pact of a program that runs alone: nobody else moves the state. -/
def alone (Op ε σ : Type) : Pact Op Unit ε σ where
  inv _ := True
  cond _ _ _ _ := True
  rely _ s t := s = t
  guar _ _ _ := True
  rely_refl _ _ := rfl
  rely_trans _ _ _ _ := Eq.trans
  rely_of_guar _ _ _ _ hne := absurd rfl hne

/-- A program that runs alone to its end ends as it promised. -/
theorem done_of_solo {M : Machine Ans Unit ε σ} {ls : List (Unit × ε)} {c : Conf Ans Unit σ α}
    (h : Holds M (alone Op ε σ) () p Q s) (hr : run M (solo p s) ls = some c)
    (hd : c.thread () = .done a) : Q a c.shared := by
  have hinv : (alone Op ε σ).inv (solo p s).shared := trivial
  exact done_of_run hinv (fun _ => h) (meets_true _ _) hr hd

/-- A program that a schedule leaves out stays as it is, and the schedule does
to the state what that program relies on. -/
theorem run_skip {Q : ι → α → σ → Prop} (hinv : P.inv c.shared)
    (h : ∀ j, Holds M P j (c.thread j) (Q j) c.shared) (hc : Meets M P.cond c ls)
    (hr : run M c ls = some c') (hi : ∀ l ∈ ls, l.1 ≠ i) :
    c'.thread i = c.thread i ∧ P.rely i c.shared c'.shared := by
  induction ls generalizing c with
  | nil => cases hr; exact ⟨rfl, P.rely_refl i _⟩
  | cons l ls ih =>
    obtain ⟨d, hd, hr'⟩ := run_cons.mp hr
    obtain ⟨h1, h2, h3⟩ := step_holds hinv h hc.1 hd
    obtain ⟨_, _, _, _, _, hthr⟩ := step_cases hd
    have hl : l.1 ≠ i := hi l List.mem_cons_self
    obtain ⟨hsame, hrely⟩ := ih h1 h3 (hc.2 d hd) hr' fun x hx => hi x (List.mem_cons_of_mem _ hx)
    refine ⟨?_, P.rely_trans i _ _ _ (P.rely_of_guar l.1 i _ _ hl hinv h1 h2) hrely⟩
    rw [hsame, hthr, update_of_ne (Ne.symm hl)]

/-- A program that begins after the first part of a run ends as it promised
when it began. -/
theorem late_of_run {Q : ι → α → σ → Prop} (hC : ∀ i o e s, C i o e s → P.cond i o e s)
    {c₁ c₂ : Conf Ans ι σ α} {ls₁ ls₂ : List (ι × ε)} {R : α → σ → Prop} (hinv : P.inv c.shared)
    (h : ∀ j, Holds M P j (c.thread j) (Q j) c.shared) (hm₁ : Meets M P.cond c ls₁)
    (hr₁ : run M c ls₁ = some c₁) (hi : ∀ l ∈ ls₁, l.1 ≠ i) (hm₂ : Meets M C c₁ ls₂)
    (hr₂ : run M c₁ ls₂ = some c₂) (hlate : P.inv c₁.shared → P.rely i c.shared c₁.shared →
      Holds M (P.withCond C) i (c.thread i) R c₁.shared) (hd : c₂.thread i = .done a) :
    R a c₂.shared := by
  obtain ⟨hinv₁, h₁⟩ := run_holds hinv h hm₁ hr₁
  obtain ⟨hthr, hrely⟩ := run_skip hinv h hm₁ hr₁ hi
  -- the late program holds `R`, and nothing is asked of the others any more
  have hall : ∀ j, Holds M (P.withCond C) j (c₁.thread j) (fun a s => j = i → R a s) c₁.shared := by
    intro j
    by_cases hj : j = i
    · subst hj
      rw [hthr]
      exact (hlate hinv₁ hrely).mono fun _ _ _ hR _ => hR
    · exact ((h₁ j).withCond hC).mono fun _ _ _ _ hji => absurd hji hj
  have hinv₁' : (P.withCond C).inv c₁.shared := hinv₁
  exact done_of_run hinv₁' hall hm₂ hr₂ hd rfl

end prom_fleet.interleave
