-- The story of one program in a run: the operations that it has done, each with its answer
-- and the states around it, and what the other programs may have done in between.
import PromFleet.Compose
import Mathlib.Data.List.Induction
import Mathlib.Logic.Relation

namespace prom_fleet.interleave

open List Function Option

variable {Op : Type} {Ans : Op → Type} {ι ε σ α β : Type}

/-! ## Events -/

/-- One operation of a program in a run. -/
structure Event (Ans : Op → Type) (ε σ : Type) where
  op : Op
  env : ε
  ans : Ans op
  before : σ
  after : σ

/-- The operation that program `p` of `i` does next with the environment `e`. -/
def eventOf (M : Machine Ans ι ε σ) (i : ι) (e : ε) (s : σ) : Prog Ans α → Option (Event Ans ε σ)
  | .done _ => none
  | .op o _ => (M.act i o e s).map fun r => ⟨o, e, r.1, s, r.2⟩

/-- The operations of program `i` along a schedule. -/
def history [DecidableEq ι] (M : Machine Ans ι ε σ) (i : ι) :
    Conf Ans ι σ α → List (ι × ε) → List (Event Ans ε σ)
  | _, [] => []
  | c, l :: ls =>
    match step M c l with
    | none => []
    | some c' =>
      (if l.1 = i then (eventOf M i l.2 c.shared (c.thread i)).toList else []) ++
        history M i c' ls

/-- The value of a program that has ended. -/
def Prog.result : Prog Ans α → Option α
  | .done a => some a
  | .op _ _ => none

variable {a : α} {p : Prog Ans α}

theorem Prog.result_eq_some : p.result = some a ↔ p = .done a := by
  cases p with
  | done | op => simp [Prog.result]

/-! ## Paths -/

/-- Some program other than `i` does an operation. -/
def Moves (M : Machine Ans ι ε σ) (i : ι) (s t : σ) : Prop :=
  ∃ j o e a, j ≠ i ∧ M.act j o e s = some (a, t)

/-- What the other programs can do to the state. -/
def Others (M : Machine Ans ι ε σ) (i : ι) : σ → σ → Prop := Relation.ReflTransGen (Moves M i)

/-- Program `p` of `i` starts in the state `s`, does these operations, and is `q` in the
state `t`. -/
inductive Path (M : Machine Ans ι ε σ) (i : ι) :
    Prog Ans α → σ → List (Event Ans ε σ) → Prog Ans α → σ → Prop
  | rest {p : Prog Ans α} {s t : σ} : Others M i s t → Path M i p s [] p t
  | op {o : Op} {k : Ans o → Prog Ans α} {q : Prog Ans α} {e : ε} {a : Ans o} {s t u v : σ}
      {evs : List (Event Ans ε σ)} : Others M i s t → M.act i o e t = some (a, u) →
      Path M i (k a) u evs q v → Path M i (.op o k) s (⟨o, e, a, t, u⟩ :: evs) q v

variable {M : Machine Ans ι ε σ} {i : ι}

theorem Others.refl (s : σ) : Others M i s s := Relation.ReflTransGen.refl

variable {s t u : σ}

theorem Others.trans (h : Others M i s t) (h' : Others M i t u) : Others M i s u :=
  Relation.ReflTransGen.trans h h'

variable {I : σ → Prop}

theorem Others.keeps (hI : ∀ j o e a s t, M.act j o e s = some (a, t) → I s → I t)
    (h : Others M i s t) (hs : I s) : I t := by
  induction h with
  | refl => exact hs
  | tail _ hmove ih =>
    obtain ⟨j, o, e, a, _, hact⟩ := hmove
    exact hI j o e a _ _ hact ih

variable {evs : List (Event Ans ε σ)} {q : Prog Ans α}

theorem Path.wait (hst : Others M i s t) (h : Path M i p t evs q u) : Path M i p s evs q u := by
  cases h with
  | rest h => exact .rest (hst.trans h)
  | op h hact hrest => exact .op (hst.trans h) hact hrest

variable {c c' : Conf Ans ι σ α} {ls : List (ι × ε)}

/-- The events of a run are a path of their program. -/
theorem path_of_run [DecidableEq ι] (h : run M c ls = some c') :
    Path M i (c.thread i) c.shared (history M i c ls) (c'.thread i) c'.shared := by
  induction ls generalizing c with
  | nil =>
    cases h
    exact .rest (Others.refl _)
  | cons l ls ih =>
    obtain ⟨d, hd, hrun⟩ := run_cons.mp h
    obtain ⟨o, k, a, hk, hact, hthr⟩ := step_cases hd
    have hrest := ih hrun
    simp only [history, hd]
    by_cases hi : l.1 = i
    · subst hi
      rw [hthr, update_self] at hrest
      rw [if_pos rfl, hk, eventOf, hact]
      exact .op (Others.refl _) hact hrest
    · rw [hthr, update_of_ne (Ne.symm hi)] at hrest
      rw [if_neg hi, nil_append]
      exact hrest.wait (Relation.ReflTransGen.single ⟨l.1, o, l.2, a, hi, hact⟩)

variable {d : Conf Ans ι σ α} {ev : Event Ans ε σ} {l : ι × ε}

theorem mem_history_later [DecidableEq ι] (hd : step M c l = some d) (h : ev ∈ history M i d ls) :
    ev ∈ history M i c (l :: ls) := by
  simp only [history, hd]
  exact mem_append_right _ h

variable {o : Op} {k : Ans o → Prog Ans α}

theorem mem_history_first [DecidableEq ι] {a : Ans o} (hd : step M c l = some d)
    (hk : c.thread l.1 = .op o k) (hact : M.act l.1 o l.2 c.shared = some (a, d.shared)) :
    ⟨o, l.2, a, c.shared, d.shared⟩ ∈ history M l.1 c (l :: ls) := by
  simp only [history, hd, hk, eventOf, hact, if_true]
  exact mem_append_left _ (mem_singleton_self _)

/-- Where an operation puts at most one entry on a list, each entry on the list of a run is the
work of one event. -/
theorem pushed_of_run [DecidableEq ι] {X : Type} {f : σ → List X}
    (hf : ∀ i o e s a t, M.act i o e s = some (a, t) → f t = f s ∨ ∃ x, f t = x :: f s)
    (h : run M c ls = some c') {x : X} {older : List X} (hx : x :: older <:+ f c'.shared) :
    x :: older <:+ f c.shared ∨ ∃ i, ∃ ev ∈ history M i c ls,
      f ev.before = older ∧ f ev.after = x :: older := by
  induction ls generalizing c with
  | nil =>
    cases h
    exact .inl hx
  | cons l ls ih =>
    obtain ⟨d, hd, hrun⟩ := run_cons.mp h
    rcases ih hrun with hold | ⟨i, ev, hev, hbefore, hafter⟩
    · obtain ⟨o, k, a, hk, hact, _⟩ := step_cases hd
      rcases hf _ _ _ _ _ _ hact with hsame | ⟨y, hpush⟩
      · exact .inl (hsame ▸ hold)
      rw [hpush] at hold
      rcases suffix_cons_iff.mp hold with heq | hold
      · obtain ⟨rfl, rfl⟩ := List.cons.inj heq
        exact .inr ⟨l.1, _, mem_history_first hd hk hact, rfl, hpush⟩
      · exact .inl hold
    · exact .inr ⟨i, ev, mem_history_later hd hev, hbefore, hafter⟩

theorem history_env [DecidableEq ι] (h : ev ∈ history M i c ls) : (i, ev.env) ∈ ls := by
  induction ls generalizing c with
  | nil => cases h
  | cons l ls ih =>
    unfold history at h
    split at h
    · cases h
    rcases mem_append.mp h with h | h
    · split at h
      · rename_i hi
        subst hi
        cases hp : c.thread l.1 with
        | done a => rw [hp] at h; cases h
        | op o k =>
          rw [hp, eventOf, mem_toList] at h
          obtain ⟨r, _, rfl⟩ := map_eq_some_iff.mp h
          exact mem_cons_self
      · cases h
    · exact mem_cons_of_mem l (ih h)

/-! ## The record of a run -/

/-- The operations of all programs along a schedule. -/
def trace [DecidableEq ι] (M : Machine Ans ι ε σ) :
    Conf Ans ι σ α → List (ι × ε) → List (ι × Event Ans ε σ)
  | _, [] => []
  | c, l :: ls =>
    match step M c l with
    | none => []
    | some c' =>
      (eventOf M l.1 l.2 c.shared (c.thread l.1)).toList.map (fun ev => (l.1, ev)) ++ trace M c' ls

/-- The operations of program `i` in a record. -/
def own [DecidableEq ι] (i : ι) (log : List (ι × Event Ans ε σ)) : List (Event Ans ε σ) :=
  (log.filter fun x => x.1 = i).map Prod.snd

/-- The machine that keeps the record of its operations. -/
def Machine.recorded (M : Machine Ans ι ε σ) : Machine Ans ι ε (σ × List (ι × Event Ans ε σ)) where
  act i o e s := (M.act i o e s.1).map fun r => (r.1, (r.2, s.2 ++ [(i, ⟨o, e, r.1, s.1, r.2⟩)]))

theorem recorded_act {e : ε} {a : Ans o} {s t : σ × List (ι × Event Ans ε σ)}
    (h : M.recorded.act i o e s = some (a, t)) :
    M.act i o e s.1 = some (a, t.1) ∧ t.2 = s.2 ++ [(i, ⟨o, e, a, s.1, t.1⟩)] := by
  obtain ⟨⟨b, u⟩, hact, hbu⟩ := map_eq_some_iff.mp h
  cases hbu
  exact ⟨hact, rfl⟩

/-- A run of the machine is a run of the one that keeps the record. -/
theorem run_recorded [DecidableEq ι] (log : List (ι × Event Ans ε σ)) (h : run M c ls = some c') :
    run M.recorded ⟨(c.shared, log), c.thread⟩ ls =
      some ⟨(c'.shared, log ++ trace M c ls), c'.thread⟩ := by
  induction ls generalizing c log with
  | nil =>
    cases h
    rw [trace, append_nil, run_nil]
  | cons l ls ih =>
    obtain ⟨d, hd, hrun⟩ := run_cons.mp h
    obtain ⟨o, k, a, hk, hact, hthr⟩ := step_cases hd
    refine run_cons.mpr
      ⟨⟨(d.shared, log ++ [(l.1, ⟨o, l.2, a, c.shared, d.shared⟩)]), d.thread⟩, ?_, ?_⟩
    · simp only [step, hk, Machine.recorded, hact, map_some, hthr]
    rw [ih _ hrun]
    simp only [trace, hd, hk, eventOf, hact, map_some, toList_some, map_cons, map_nil, append_assoc]

@[simp] theorem own_nil [DecidableEq ι] : own i ([] : List (ι × Event Ans ε σ)) = [] := rfl

theorem own_append_self [DecidableEq ι] (log : List (ι × Event Ans ε σ)) (ev : Event Ans ε σ) :
    own i (log ++ [(i, ev)]) = own i log ++ [ev] := by
  simp [own]

theorem own_append_of_ne [DecidableEq ι] {j : ι} (h : i ≠ j) (log : List (ι × Event Ans ε σ))
    (ev : Event Ans ε σ) : own j (log ++ [(i, ev)]) = own j log := by
  simp [own, h]

/-- The record has the events of each program in their order. -/
theorem own_trace [DecidableEq ι] (c : Conf Ans ι σ α) (ls : List (ι × ε)) :
    own i (trace M c ls) = history M i c ls := by
  induction ls generalizing c with
  | nil => rfl
  | cons l ls ih =>
    unfold trace history
    cases hstep : step M c l with
    | none => rfl
    | some c' =>
      dsimp only
      rw [← ih c']
      unfold own
      rw [filter_append, map_append]
      congr 1
      by_cases hi : l.1 = i
      · subst hi
        cases eventOf M l.1 l.2 c.shared (c.thread l.1) <;> simp
      · rw [if_neg hi]
        cases eventOf M l.1 l.2 c.shared (c.thread l.1) <;> simp [hi]

/-! ## Taking a path apart -/

theorem Path.of_done (h : Path M i (.done a) s evs q t) :
    evs = [] ∧ q = .done a ∧ Others M i s t := by
  cases h with
  | rest h => exact ⟨rfl, rfl, h⟩

variable {v : σ} {x : α}

theorem Path.of_op (h : Path M i (.op o k) s evs (.done x) v) :
    ∃ e a t u evs', Others M i s t ∧ M.act i o e t = some (a, u) ∧
      evs = ⟨o, e, a, t, u⟩ :: evs' ∧ Path M i (k a) u evs' (.done x) v := by
  cases h with
  | op h hact hrest => exact ⟨_, _, _, _, _, h, hact, rfl, hrest⟩

theorem Path.first (h : Path M i (.op o k) s evs q v) : (evs = [] ∧ q = .op o k) ∨
      ∃ e a t u evs', Others M i s t ∧ M.act i o e t = some (a, u) ∧
        evs = ⟨o, e, a, t, u⟩ :: evs' ∧ Path M i (k a) u evs' q v := by
  cases h with
  | rest _ => exact .inl ⟨rfl, rfl⟩
  | op h hact hrest => exact .inr ⟨_, _, _, _, _, h, hact, rfl, hrest⟩

variable {f : β → Prog Ans α}

/-- A program of two parts that has ended has ended both. -/
theorem Path.of_bind {p : Prog Ans β} (h : Path M i (p >>= f) s evs (.done x) v) :
    ∃ a u evs₁ evs₂, evs = evs₁ ++ evs₂ ∧ Path M i p s evs₁ (.done a) u ∧
      Path M i (f a) u evs₂ (.done x) v := by
  induction p generalizing s evs with
  | done a => exact ⟨a, s, [], evs, rfl, .rest (Others.refl s), h⟩
  | op o k ih =>
    obtain ⟨e, a, t, u, evs', hst, hact, rfl, hrest⟩ := Path.of_op h
    obtain ⟨b, w, evs₁, evs₂, rfl, h₁, h₂⟩ := ih a hrest
    exact ⟨b, w, _ :: evs₁, evs₂, rfl, .op hst hact h₁, h₂⟩

/-- Every operation that the program can come to is one of `S`. -/
def Prog.Only (S : Op → Prop) : Prog Ans α → Prop
  | .done _ => True
  | .op o k => S o ∧ ∀ a, (k a).Only S

variable {S : Op → Prop}

theorem Prog.Only.bind {p : Prog Ans β} (hp : p.Only S) (hf : ∀ a, (f a).Only S) :
    (p >>= f).Only S := by
  induction p with
  | done a => exact hf a
  | op o k ih => exact ⟨hp.1, fun a => ih a (hp.2 a)⟩

theorem Path.only (h : Path M i p s evs q t) (hp : p.Only S) : ∀ ev ∈ evs, S ev.op := by
  induction h with
  | rest _ => exact fun _ hev => by cases hev
  | op _ _ _ ih =>
    intro ev hev
    rcases mem_cons.mp hev with rfl | hev
    · exact hp.1
    · exact ih (hp.2 _) ev hev

theorem Prog.Only.mono {T : Op → Prop} (h : ∀ o, S o → T o) (hp : p.Only S) : p.Only T := by
  induction p with
  | done a => trivial
  | op o k ih => exact ⟨h o hp.1, fun a => ih a (hp.2 a)⟩

theorem Prog.Only.inr {Op' : Type} {Ans' : Op' → Type} {S : Op' ⊕ Op → Prop}
    (hp : p.Only fun o => S (.inr o)) : (p.inr : Prog (Either Ans' Ans) α).Only S := by
  induction p with
  | done a => trivial
  | op o k ih => exact ⟨hp.1, fun a => ih a (hp.2 a)⟩

/-- The record of a run has only operations that its programs can come to. -/
theorem run_only [DecidableEq ι] {c c' : Conf Ans ι (σ × List (ι × Event Ans ε σ)) α}
    (hp : (c.thread i).Only S) (hold : ∀ ev ∈ own i c.shared.2, S ev.op)
    (hrun : run M.recorded c ls = some c') : ∀ ev ∈ own i c'.shared.2, S ev.op := by
  induction ls generalizing c with
  | nil => cases hrun; exact hold
  | cons l ls ih =>
    obtain ⟨d, hd, hrest⟩ := run_cons.mp hrun
    obtain ⟨o, k, a, hk, hact, hthr⟩ := step_cases hd
    obtain ⟨_, hlog⟩ := recorded_act hact
    by_cases hi : l.1 = i
    · subst hi
      rw [hk] at hp
      refine ih ?_ ?_ hrest
      · rw [hthr, update_self]
        exact hp.2 a
      intro ev hev
      rw [hlog, own_append_self, mem_append, mem_singleton] at hev
      rcases hev with hev | rfl
      · exact hold ev hev
      · exact hp.1
    · refine ih ?_ ?_ hrest
      · rw [hthr, update_of_ne (Ne.symm hi)]
        exact hp
      · rw [hlog, own_append_of_ne hi]
        exact hold

/-- Every value that the program can end with is one of `φ`, whatever it is answered. -/
def Prog.Returns (φ : α → Prop) : Prog Ans α → Prop
  | .done a => φ a
  | .op _ k => ∀ a, (k a).Returns φ

variable {φ : β → Prop}

theorem Prog.Returns.bind {ψ : α → Prop} {p : Prog Ans β} (hp : p.Returns φ)
    (hf : ∀ b, φ b → (f b).Returns ψ) : (p >>= f).Returns ψ := by
  induction p with
  | done b => exact hf b hp
  | op o k ih => exact fun a => ih a (hp a)

theorem Prog.Only.bind_returns {p : Prog Ans β} (hp : p.Only S) (hr : p.Returns φ)
    (hf : ∀ b, φ b → (f b).Only S) : (p >>= f).Only S := by
  induction p with
  | done b => exact hf b hr
  | op o k ih => exact ⟨hp.1, fun a => ih a (hp.2 a) (hr a)⟩

/-- The program keeps the rules `ok` for its operations, where `m` is what its operations and
their answers have come to so far, and ends as `Q` allows. -/
def Prog.Obeys {μ : Type} (next : μ → (o : Op) → Ans o → μ) (ok : μ → Op → Prop)
    (Q : μ → α → Prop) : μ → Prog Ans α → Prop
  | m, .done a => Q m a
  | m, .op o k => ok m o ∧ ∀ a, (k a).Obeys next ok Q (next m o a)

section Obeys

variable {μ : Type} {next : μ → (o : Op) → Ans o → μ} {ok : μ → Op → Prop} {m : μ}
  {Q : μ → α → Prop}

theorem Prog.Obeys.bind {R : μ → β → Prop} {p : Prog Ans β}
    (hp : p.Obeys next ok R m) (hf : ∀ m b, R m b → (f b).Obeys next ok Q m) :
    (p >>= f).Obeys next ok Q m := by
  induction p generalizing m with
  | done b => exact hf m b hp
  | op o k ih => exact ⟨hp.1, fun a => ih a (hp.2 a)⟩

variable {p : Prog Ans α}

theorem Prog.Obeys.mono {ok' : μ → Op → Prop} {R : μ → α → Prop} (hp : p.Obeys next ok Q m)
    (hok : ∀ m o, ok m o → ok' m o) (h : ∀ m a, Q m a → R m a) : p.Obeys next ok' R m := by
  induction p generalizing m with
  | done a => exact h m a hp
  | op o k ih => exact ⟨hok m o hp.1, fun a => ih a (hp.2 a)⟩

/-- What the events come to. -/
def outcome (next : μ → (o : Op) → Ans o → μ) (m : μ) (evs : List (Event Ans ε σ)) : μ :=
  evs.foldl (fun m ev => next m ev.op ev.ans) m

@[simp] theorem outcome_concat (evs : List (Event Ans ε σ)) (ev : Event Ans ε σ) :
    outcome next m (evs ++ [ev]) = next (outcome next m evs) ev.op ev.ans := by
  simp [outcome]

variable {evs : List (Event Ans ε σ)}

/-- What holds at the end was set by some event, and the events after it have kept it. -/
theorem exists_setter (R : μ → Prop) (S : Event Ans ε σ → Prop) (keep : Op → Prop) (hm : ¬R m)
    (hstep : ∀ m (ev : Event Ans ε σ), R (next m ev.op ev.ans) → S ev ∨ keep ev.op ∧ R m)
    (h : R (outcome next m evs)) :
    ∃ pre ev post, evs = pre ++ ev :: post ∧ S ev ∧ ∀ x ∈ post, keep x.op := by
  induction evs using List.reverseRecOn with
  | nil => exact absurd h hm
  | append_singleton evs ev ih =>
    rw [outcome_concat] at h
    rcases hstep _ ev h with hset | ⟨hkeep, hold⟩
    · exact ⟨evs, ev, [], rfl, hset, by simp⟩
    obtain ⟨pre, ev', post, rfl, hset, hpost⟩ := ih hold
    refine ⟨pre, ev', post ++ [ev], by simp, hset, ?_⟩
    intro x hx
    rcases mem_append.mp hx with hx | hx
    · exact hpost x hx
    · rw [mem_singleton.mp hx]
      exact hkeep

/-- A program that keeps its rules has kept them along a path, and keeps them from there. -/
theorem Path.obeys (h : Path M i p s evs q t) (hp : p.Obeys next ok Q m)
    : q.Obeys next ok Q (outcome next m evs) ∧
      ∀ pre ev post, evs = pre ++ ev :: post → ok (outcome next m pre) ev.op := by
  induction h generalizing m with
  | rest _ =>
    refine ⟨hp, ?_⟩
    intro pre ev post hevs
    simp at hevs
  | op _ _ _ ih =>
    obtain ⟨hend, hall⟩ := ih (hp.2 _)
    refine ⟨hend, ?_⟩
    intro pre ev post hevs
    cases pre with
    | nil =>
      cases hevs
      exact hp.1
    | cons x pre =>
      cases hevs
      exact hall pre ev post rfl

variable {c : Conf Ans ι (σ × List (ι × Event Ans ε σ)) α} {Q : ι → μ → α → Prop}

/-- One step of one program keeps the rules of every program. -/
theorem step_obeys [DecidableEq ι] {d : Conf Ans ι (σ × List (ι × Event Ans ε σ)) α}
    (h : ∀ j, (c.thread j).Obeys next ok (Q j) (outcome next m (own j c.shared.2)))
    (hd : step M.recorded c l = some d) :
    ∀ j, (d.thread j).Obeys next ok (Q j) (outcome next m (own j d.shared.2)) := by
  obtain ⟨o, k, a, hk, hact, hthr⟩ := step_cases hd
  obtain ⟨_, hlog⟩ := recorded_act hact
  intro j
  rw [hthr, hlog]
  by_cases hj : j = l.1
  · subst hj
    have hp := h l.1
    rw [hk] at hp
    rw [update_self, own_append_self, outcome_concat]
    exact hp.2 a
  · rw [update_of_ne hj, own_append_of_ne (Ne.symm hj)]
    exact h j

/-- Programs that keep their rules keep them in every run. -/
theorem run_obeys [DecidableEq ι] {c' : Conf Ans ι (σ × List (ι × Event Ans ε σ)) α}
    (h : ∀ j, (c.thread j).Obeys next ok (Q j) (outcome next m (own j c.shared.2)))
    (hrun : run M.recorded c ls = some c') :
    ∀ j, (c'.thread j).Obeys next ok (Q j) (outcome next m (own j c'.shared.2)) := by
  induction ls generalizing c with
  | nil => cases hrun; exact h
  | cons l ls ih =>
    obtain ⟨d, hd, hrest⟩ := run_cons.mp hrun
    exact ih (step_obeys h hd) hrest

theorem meets_obeys [DecidableEq ι] (ls : List (ι × ε))
    (h : ∀ j, (c.thread j).Obeys next ok (Q j) (outcome next m (own j c.shared.2))) :
    Meets M.recorded (fun i o _ s => ok (outcome next m (own i s.2)) o) c ls := by
  induction ls generalizing c with
  | nil => trivial
  | cons l ls ih =>
    refine ⟨fun o k hk => ?_, fun d hd => ih (step_obeys h hd)⟩
    have hp := h l.1
    rw [hk] at hp
    exact hp.1

end Obeys

/-- An operation of `S` is the last one of the program. -/
def Prog.EndsWith (S : Op → Prop) : Prog Ans α → Prop
  | .done _ => True
  | .op o k => ∀ a, (S o → ∃ x, k a = .done x) ∧ (k a).EndsWith S

theorem Prog.EndsWith.bind {p : Prog Ans β} (hp : p.Only fun o => ¬S o)
    (hf : ∀ a, (f a).EndsWith S) : (p >>= f).EndsWith S := by
  induction p with
  | done a => exact hf a
  | op o k ih => exact fun a => ⟨fun ho => absurd ho hp.1, ih a (hp.2 a)⟩

theorem Prog.EndsWith.map {p : Prog Ans β} (hp : p.EndsWith S) (hf : ∀ b, ∃ x, f b = .done x) :
    (p >>= f).EndsWith S := by
  induction p with
  | done b =>
    obtain ⟨x, hx⟩ := hf b
    rw [Prog.done_bind, hx]
    trivial
  | op o k ih =>
    intro a
    obtain ⟨hlast, hrest⟩ := hp a
    refine ⟨fun ho => ?_, ih a hrest⟩
    obtain ⟨b, hb⟩ := hlast ho
    obtain ⟨x, hx⟩ := hf b
    refine ⟨x, ?_⟩
    change (k a).bind f = _
    rw [hb]
    exact hx

theorem Path.ended (h : Path M i p s evs q t) (hp : p.EndsWith S) (hev : ev ∈ evs) (hS : S ev.op) :
    ∃ x, q = .done x := by
  induction h with
  | rest _ => cases hev
  | op _ _ hrest ih =>
    rcases mem_cons.mp hev with rfl | hev
    · obtain ⟨x, hx⟩ := (hp _).1 hS
      rw [hx] at hrest
      exact ⟨x, hrest.of_done.2.1⟩
    · exact ih (hp _).2 hev

theorem Path.of_map {p : Prog Ans β} {f : β → α}
    (h : Path M i (p >>= fun a => Prog.done (f a)) s evs (.done x) v) :
    ∃ a u, x = f a ∧ Path M i p s evs (.done a) u ∧ Others M i u v := by
  obtain ⟨a, u, evs₁, evs₂, rfl, h₁, h₂⟩ := Path.of_bind h
  obtain ⟨rfl, hx, hrest⟩ := h₂.of_done
  cases hx
  rw [append_nil]
  exact ⟨a, u, rfl, h₁, hrest⟩

variable (hI : ∀ j o e a s t, M.act j o e s = some (a, t) → I s → I t)

include hI

theorem Path.keeps
    (h : Path M i p s evs q t) (hs : I s) : I t ∧ ∀ ev ∈ evs, I ev.before ∧ I ev.after := by
  induction h with
  | rest h => exact ⟨h.keeps hI hs, fun _ hev => by cases hev⟩
  | op h hact _ ih =>
    have hbefore := h.keeps hI hs
    have hafter := hI _ _ _ _ _ _ hact hbefore
    obtain ⟨hend, hall⟩ := ih hafter
    refine ⟨hend, fun ev hev => ?_⟩
    rcases mem_cons.mp hev with rfl | hev
    · exact ⟨hbefore, hafter⟩
    · exact hall ev hev

/-- What every operation keeps holds from an event on. -/
theorem Path.keeps_after (pre : List (Event Ans ε σ)) {post : List (Event Ans ε σ)}
    (h : Path M i p s (pre ++ ev :: post) q t) (hev : I ev.after) :
    I t ∧ ∀ ev' ∈ post, I ev'.before ∧ I ev'.after := by
  induction pre generalizing p s with
  | nil =>
    cases h with
    | op _ _ hrest => exact hrest.keeps hI hev
  | cons x pre ih =>
    cases h with
    | op _ _ hrest => exact ih hrest

omit hI

theorem Path.acts (h : Path M i p s evs q t) :
    ∀ ev ∈ evs, M.act i ev.op ev.env ev.before = some (ev.ans, ev.after) := by
  induction h with
  | rest _ => exact fun _ hev => by cases hev
  | op _ hact _ ih =>
    intro ev hev
    rcases mem_cons.mp hev with rfl | hev
    · exact hact
    · exact ih ev hev

end prom_fleet.interleave
