-- A pool of workers. A feeder hands the jobs of a list out in order, each to a free worker,
-- until they are gone or it sees the deadline. The workers answer in any order, and each
-- job has a slot of its own for its result.
import Mathlib.Data.List.Nodup

namespace prom_fleet.worker_pool

open List Function

/-- The jobs, the number of workers, what a worker files for an answer to a job, and what
the feeder files for a job that no worker took. -/
structure Pool (J A R : Type) where
  jobs : List J
  workers : Nat
  work : J → A → R
  late : J → R

/-- A state: how many jobs are handed out, which of them workers still hold, whether the
feeder has stopped, whether the deadline has fired, and the slots. -/
structure State (R : Type) where
  next : Nat
  busy : List Nat
  stopped : Bool
  fired : Bool
  slots : Nat → Option R

def State.start {R : Type} : State R := ⟨0, [], false, false, fun _ => none⟩

/-- What happens in a step: the deadline fires, the feeder hands a job out or stops, or the
worker with a job files its result. -/
inductive Act (A : Type) where
  | fire
  | hand
  | stop
  | finish (i : Nat) (a : A)

namespace Pool

variable {J A R : Type} (P : Pool J A R)

variable (s : State R)

def step : Act A → Option (State R)
  | .fire => some { s with fired := true }
  | .hand =>
    if s.stopped = false ∧ s.next < P.jobs.length ∧ s.busy.length < P.workers then
      some { s with next := s.next + 1, busy := s.next :: s.busy }
    else none
  | .stop =>
    if s.fired = true ∧ s.stopped = false ∧ s.next < P.jobs.length then
      some { s with
        stopped := true
        slots := fun i => if s.next ≤ i then P.jobs[i]?.map P.late else s.slots i }
    else none
  | .finish i a =>
    if i ∈ s.busy then
      P.jobs[i]?.map fun j => { s with
        busy := s.busy.erase i
        slots := update s.slots i (some (P.work j a)) }
    else none

def run : State R → List (Act A) → Option (State R)
  | s, [] => some s
  | s, a :: acts => (P.step s a).bind fun s' => run s' acts

/-- The feeder is through and every worker has filed. -/
def Done : Prop :=
  s.busy = [] ∧ (s.stopped = true ∨ s.next = P.jobs.length)

instance (s : State R) : Decidable (P.Done s) := inferInstanceAs (Decidable (_ ∧ _))

def results : List R := (List.range P.jobs.length).filterMap s.slots

/-! ## The invariant -/

/-- The jobs that are out are with a worker or filed, and a feeder that has stopped has
filed the rest. -/
structure Sound : Prop where
  next_le : s.next ≤ P.jobs.length
  nodup : s.busy.Nodup
  busy_lt : ∀ i ∈ s.busy, i < s.next
  filed : ∀ i j, i < s.next → i ∉ s.busy → P.jobs[i]? = some j →
    ∃ a, s.slots i = some (P.work j a)
  rest : s.stopped = true → ∀ i j, s.next ≤ i → P.jobs[i]? = some j → s.slots i = some (P.late j)

variable {P} {s s' : State R}

theorem sound_start : P.Sound .start :=
  ⟨Nat.zero_le _, nodup_nil, fun _ h => absurd h not_mem_nil,
    fun _ _ h => absurd h (Nat.not_lt_zero _), fun h => by cases h⟩

variable (h : P.Sound s)

include h

theorem Sound.hand (hrunning : s.stopped = false) (hlt : s.next < P.jobs.length) :
    P.Sound { s with next := s.next + 1, busy := s.next :: s.busy } := by
  refine ⟨hlt, ?_, ?_, ?_, ?_⟩
  · exact nodup_cons.mpr ⟨fun hmem => Nat.lt_irrefl _ (h.busy_lt _ hmem), h.nodup⟩
  · intro i hi
    rcases mem_cons.mp hi with rfl | hi
    · exact Nat.lt_succ_self _
    · exact Nat.lt_succ_of_lt (h.busy_lt i hi)
  · intro i j hi hbusy hj
    have hne : i ≠ s.next := fun heq => hbusy (heq ▸ mem_cons_self)
    have hlt' : i < s.next := by
      dsimp only at hi
      omega
    exact h.filed i j hlt' (fun hmem => hbusy (mem_cons_of_mem _ hmem)) hj
  · intro hstopped
    rw [show s.stopped = true from hstopped] at hrunning
    cases hrunning

/-- A feeder that stops files the jobs that are left as late. -/
theorem Sound.stop :
    P.Sound { s with
      stopped := true
      slots := fun i => if s.next ≤ i then P.jobs[i]?.map P.late else s.slots i } := by
  refine ⟨h.next_le, h.nodup, h.busy_lt, ?_, ?_⟩
  · intro i j hi hbusy hj
    dsimp only at hi ⊢
    rw [if_neg (by omega)]
    exact h.filed i j hi hbusy hj
  · intro _ i j hi hj
    dsimp only at hi ⊢
    rw [if_pos hi, hj]
    rfl

/-- A worker files the result of its own job, and no other slot changes. -/
theorem Sound.finish {k : Nat} {job : J} (hk : k ∈ s.busy) (hjob : P.jobs[k]? = some job) (a : A) :
    P.Sound { s with
      busy := s.busy.erase k
      slots := update s.slots k (some (P.work job a)) } := by
  refine ⟨h.next_le, h.nodup.erase k, ?_, ?_, ?_⟩
  · intro i hi
    exact h.busy_lt i (mem_of_mem_erase hi)
  · intro i j hi hbusy hj
    by_cases hik : i = k
    · subst hik
      obtain rfl := Option.some.inj (hjob.symm.trans hj)
      exact ⟨a, update_self ..⟩
    · obtain ⟨b, hb⟩ := h.filed i j hi (fun hmem => hbusy ((mem_erase_of_ne hik).mpr hmem)) hj
      exact ⟨b, (update_of_ne hik ..).trans hb⟩
  · intro hstopped i j hi hj
    have hik : i ≠ k := by
      have := h.busy_lt k hk
      dsimp only at hi
      omega
    exact (update_of_ne hik ..).trans (h.rest hstopped i j hi hj)

theorem Sound.step {a : Act A} (hstep : P.step s a = some s') : P.Sound s' := by
  cases a with
  | fire =>
    cases hstep
    exact ⟨h.next_le, h.nodup, h.busy_lt, h.filed, h.rest⟩
  | hand =>
    simp only [Pool.step] at hstep
    split at hstep
    · rename_i hfree
      cases hstep
      exact h.hand hfree.1 hfree.2.1
    · cases hstep
  | stop =>
    simp only [Pool.step] at hstep
    split at hstep
    · cases hstep
      exact h.stop
    · cases hstep
  | finish k a =>
    simp only [Pool.step] at hstep
    split at hstep
    · rename_i hk
      obtain ⟨job, hjob, rfl⟩ := Option.map_eq_some_iff.mp hstep
      exact h.finish hk hjob a
    · cases hstep

theorem Sound.run {acts : List (Act A)} (hrun : P.run s acts = some s') :
    P.Sound s' := by
  induction acts generalizing s with
  | nil => exact Option.some.inj hrun ▸ h
  | cons a acts ih =>
    obtain ⟨s₁, hstep, hrest⟩ := Option.bind_eq_some_iff.mp hrun
    exact ih (h.step hstep) hrest

/-! ## The results -/

theorem Sound.slot_of_done (hdone : P.Done s) {i : Nat} {j : J} (hj : P.jobs[i]? = some j) :
    ∃ r, s.slots i = some r ∧ (r = P.late j ∨ ∃ a, r = P.work j a) := by
  obtain ⟨hidle, hthrough⟩ := hdone
  by_cases hi : i < s.next
  · obtain ⟨a, ha⟩ := h.filed i j hi (by rw [hidle]; exact not_mem_nil) hj
    exact ⟨_, ha, .inr ⟨a, rfl⟩⟩
  rcases hthrough with hstopped | hall
  · exact ⟨_, h.rest hstopped i j (Nat.le_of_not_lt hi) hj, .inl rfl⟩
  · have hlen := (List.getElem?_eq_some_iff.mp hj).1
    omega

/-- When the pool is done, each job has exactly one result, filed by its worker or by the
feeder. -/
theorem Sound.results_of_done (hdone : P.Done s) :
    List.Forall₂ (fun j r => r = P.late j ∨ ∃ a, r = P.work j a) P.jobs (P.results s) := by
  have hslots : ∀ n (jobs : List J), (∀ i j, jobs[i]? = some j → ∃ r, s.slots (n + i) = some r ∧
      (r = P.late j ∨ ∃ a, r = P.work j a)) →
      List.Forall₂ (fun j r => r = P.late j ∨ ∃ a, r = P.work j a) jobs
        ((List.range' n jobs.length).filterMap s.slots) := by
    intro n jobs
    induction jobs generalizing n with
    | nil => exact fun _ => .nil
    | cons j jobs ih =>
      intro hall
      obtain ⟨r, hr, hfrom⟩ := hall 0 j rfl
      have hr : s.slots n = some r := hr
      rw [length_cons, List.range'_succ, filterMap_cons_some hr]
      refine .cons hfrom (ih (n + 1) fun i j' hj' => ?_)
      rw [Nat.add_assoc, Nat.add_comm 1]
      exact hall (i + 1) j' hj'
  unfold results
  rw [range_eq_range']
  refine hslots 0 P.jobs fun i j hj => ?_
  rw [Nat.zero_add]
  exact h.slot_of_done hdone hj

/-! ## Progress -/

/-- How much is left to do. -/
def left (P : Pool J A R) (s : State R) : Nat :=
  (if s.stopped then 0 else 2 * (P.jobs.length - s.next)) + s.busy.length

/-- A pool with a worker is done, or has a step that leaves less to do. -/
theorem Sound.progress (hworkers : 0 < P.workers) (a : A) :
    P.Done s ∨ ∃ act s', P.step s act = some s' ∧ P.left s' < P.left s := by
  cases hbusy : s.busy with
  | cons i rest =>
    have hi : i ∈ s.busy := hbusy ▸ mem_cons_self
    have hlt : i < P.jobs.length := Nat.lt_of_lt_of_le (h.busy_lt i hi) h.next_le
    have hstep : P.step s (.finish i a) = some { s with
        busy := s.busy.erase i
        slots := update s.slots i (some (P.work P.jobs[i] a)) } := by
      simp only [Pool.step, if_pos hi, List.getElem?_eq_getElem hlt, Option.map_some]
    refine .inr ⟨_, _, hstep, ?_⟩
    have herase := length_erase_of_mem hi
    have hpos := length_pos_of_mem hi
    unfold left
    dsimp only
    omega
  | nil =>
    by_cases hthrough : s.stopped = true ∨ s.next = P.jobs.length
    · exact .inl ⟨hbusy, hthrough⟩
    obtain ⟨hrunning, hmore⟩ := not_or.mp hthrough
    have hrunning : s.stopped = false := by simpa using hrunning
    have hlt : s.next < P.jobs.length := Nat.lt_of_le_of_ne h.next_le hmore
    have hfree : s.busy.length < P.workers := by
      rw [hbusy]
      exact hworkers
    have hstep : P.step s .hand = some { s with
        next := s.next + 1
        busy := s.next :: s.busy } := by
      simp only [Pool.step, if_pos (And.intro hrunning (And.intro hlt hfree))]
    refine .inr ⟨_, _, hstep, ?_⟩
    unfold left
    simp only [hbusy, hrunning, Bool.false_eq_true, if_false, length_cons, length_nil]
    omega

/-- From every state that is reached, the pool can come to its end. -/
theorem Sound.ends (hworkers : 0 < P.workers) (a : A) :
    ∃ acts s', P.run s acts = some s' ∧ P.Done s' := by
  induction hn : P.left s using Nat.strongRecOn generalizing s with
  | _ n ih =>
    rcases h.progress hworkers a with hdone | ⟨act, s₁, hstep, hlt⟩
    · exact ⟨[], s, rfl, hdone⟩
    obtain ⟨acts, s₂, hrun, hdone⟩ := ih _ (hn ▸ hlt) (h.step hstep) rfl
    refine ⟨act :: acts, s₂, ?_, hdone⟩
    unfold Pool.run
    rw [hstep]
    exact hrun

end Pool

end prom_fleet.worker_pool
