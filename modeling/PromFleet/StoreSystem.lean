-- Any number of calls at any number of replicas of the Secret-backed store, in
-- every interleaving, from an empty memory and a Secret that is absent or given.
import PromFleet.SecretStoreSpecs

namespace prom_fleet.secretstore

open interleave kube store

variable {ρ ι μ β Blob : Type}

/-- A call of the store. A thread that makes several calls is several calls. -/
inductive Request (ρ μ : Type) where
  | mutate (r : ρ) (m : μ)
  | read (r : ρ)
  | load (r : ρ) (fresh : Bool)
  | close (r : ρ)

inductive Outcome (β Blob : Type) where
  | mutated (x : Exit β Blob)
  | read (x : Except ReadErr State)
  | loaded (x : Except LoadErr (Secret Blob))
  | closed

def Request.program (S : Setup ρ μ β Blob) : Request ρ μ → Call ρ μ Blob (Outcome β Blob)
  | .mutate r m => return .mutated (← secretstore.mutate S r m)
  | .read r => return .read (← secretstore.read S r)
  | .load r fresh => return .loaded (← secretstore.load S r fresh)
  | .close r => do
    secretstore.close r
    return .closed

/-- The state before the first call. -/
def initial (start : Option (Secret Blob)) : World ρ ι μ Blob :=
  { server := match start with
      | none => []
      | some sec => [{ secret := sec, note := none }]
    mem := fun _ => { cached := none, cachedAt := 0, size := 0, closed := false, newest := 0 } }

def system (S : Setup ρ μ β Blob) (start : Option (Secret Blob)) (calls : ι → Request ρ μ) :
    Conf (@Ans ρ μ Blob) ι (World ρ ι μ Blob) (Outcome β Blob) :=
  { shared := initial start, thread := fun i => (calls i).program S }

/-- Only the mutation of a call is written in its name. -/
def planOf (start : Option (Secret Blob)) (calls : ι → Request ρ μ) : Plan ι μ Blob :=
  { start := start, carries := fun i m => ∃ r, calls i = .mutate r m }

/-- The server stores no Secret without a resource version. -/
def Versioned (start : Option (Secret Blob)) : Prop :=
  ∀ sec, start = some sec → 0 < sec.resourceVersion

section Holds

variable [DecidableEq ρ] [DecidableEq ι] {S : Setup ρ μ β Blob} {start : Option (Secret Blob)}
  {calls : ι → Request ρ μ} {I : World ρ ι μ Blob → Prop}
  {C : ι → Op ρ μ Blob → Env → World ρ ι μ Blob → Prop}

omit [DecidableEq ρ] in
theorem commitsOf_initial (start : Option (Secret Blob)) (i : ι) :
    commitsOf i (initial start : World ρ ι μ Blob) = [] := by
  cases start <;> rfl

omit [DecidableEq ρ] in
theorem good_initial (plan : Plan ι μ Blob) (hv : Versioned plan.start) :
    Good S plan (initial plan.start : World ρ ι μ Blob) := by
  refine ⟨?_, ?_, fun r sec h => (by cases h), fun r => .inl rfl, fun i => ?_, fun i m t h => ?_⟩
  · cases hs : plan.start with
    | none => exact ordered_nil
    | some sec => exact ordered_nil.push (hv sec hs) fun cur h => by cases h
  · cases hs : plan.start with
    | none => exact .absent rfl
    | some sec => exact .given rfl
  · rw [commitsOf_initial]
    exact Nat.zero_le _
  · rw [commitsOf_initial] at h
    cases h

/-- What a call that began in `w` has done when it ends in `w'`. -/
def Promise (S : Setup ρ μ β Blob) (plan : Plan ι μ Blob) (I : World ρ ι μ Blob → Prop)
    (C : ι → Op ρ μ Blob → Env → World ρ ι μ Blob → Prop) (i : ι) (w : World ρ ι μ Blob) :
    Request ρ μ → Outcome β Blob → World ρ ι μ Blob → Prop
  | .mutate r m, .mutated x, w' => Mutated S plan I C i r m w x w'
  | .read r, .read x, w' => Read S plan I C i r w x w'
  | .load r fresh, .loaded x, w' => Loaded S plan I C i r fresh w x w'
  | .close _, .closed, _ => True
  | _, _, _ => False

theorem program_spec {plan : Plan ι μ Blob} (hI : Keeps S plan I C) {i : ι} {q : Request ρ μ}
    (hq : ∀ r m, q = .mutate r m → plan.carries i m) {w : World ρ ι μ Blob}
    (hcom : commitsOf i w = []) :
    Fulfils S plan I C i (q.program S) (Promise S plan I C i w q) w := by
  cases q with
  | mutate r m => exact .map (mutate_spec hI r (hq r m rfl) hcom)
  | read r => exact .map (read_spec hI r w)
  | load r fresh => exact .map (load_spec hI r fresh w)
  | close r => exact .map ((close_spec hI r w).mono fun _ _ _ _ => trivial)

theorem system_spec (hI : Keeps S (planOf start calls) I C) (i : ι) :
    Holds (machine S) (pact S (planOf start calls) I C) i ((system S start calls).thread i)
      (Promise S (planOf start calls) I C i (initial start) (calls i))
      (system S start calls).shared :=
  program_spec hI (fun r _ h => ⟨r, h⟩) (commitsOf_initial start i)

end Holds

/-! ## The parts of a run -/

section Runs

variable [DecidableEq ρ] [DecidableEq ι] {S : Setup ρ μ β Blob} {start : Option (Secret Blob)}
  {calls : ι → Request ρ μ} {I : World ρ ι μ Blob → Prop}
  {C C' : ι → Op ρ μ Blob → Env → World ρ ι μ Blob → Prop}
  {ls ls₁ ls₂ : List (ι × Env)}
  {c c₁ c₂ : Conf (@Ans ρ μ Blob) ι (World ρ ι μ Blob) (Outcome β Blob)}

/-- Every state of a run keeps the invariant, and every call that has ended did
what it promised. -/
theorem promise_of_run (hv : Versioned start) (hI : Keeps S (planOf start calls) I C)
    (h0 : I (initial start)) (hm : Meets (machine S) C (system S start calls) ls)
    (hr : run (machine S) (system S start calls) ls = some c) :
    Good S (planOf start calls) c.shared ∧ I c.shared ∧
      ∀ i x, c.thread i = .done x →
        Promise S (planOf start calls) I C i (initial start) (calls i) x c.shared := by
  have hinv : (pact S (planOf start calls) I C).inv (system S start calls).shared :=
    ⟨good_initial (planOf start calls) hv, h0⟩
  obtain ⟨hinv', _⟩ := run_holds hinv (system_spec hI) hm hr
  refine ⟨hinv'.1, hinv'.2, fun i x hd => ?_⟩
  exact done_of_run hinv (system_spec hI) hm hr hd

/-- A call that begins after the first part of a run keeps its promise from the
state at which it began. -/
theorem promise_of_late (hv : Versioned start) (hI : Keeps S (planOf start calls) I C)
    (hI' : Keeps S (planOf start calls) I C') (hC : ∀ i o e w, C' i o e w → C i o e w)
    (h0 : I (initial start)) (hm₁ : Meets (machine S) C (system S start calls) ls₁)
    (hr₁ : run (machine S) (system S start calls) ls₁ = some c₁) {i : ι}
    (hi : ∀ l ∈ ls₁, l.1 ≠ i) (hm₂ : Meets (machine S) C' c₁ ls₂)
    (hr₂ : run (machine S) c₁ ls₂ = some c₂) {x : Outcome β Blob} (hd : c₂.thread i = .done x) :
    Promise S (planOf start calls) I C' i c₁.shared (calls i) x c₂.shared := by
  have hinv : (pact S (planOf start calls) I C).inv (system S start calls).shared :=
    ⟨good_initial (planOf start calls) hv, h0⟩
  refine late_of_run hC hinv (system_spec hI) hm₁ hr₁ hi hm₂ hr₂ (fun _ hrely => ?_) hd
  have hcom : commitsOf i c₁.shared = [] := hrely.2.trans (commitsOf_initial start i)
  exact program_spec hI' (fun r _ h => ⟨r, h⟩) hcom

end Runs

/-! ## Two replicas -/

/-- An encoding for the examples: the document is its own bytes. -/
def plainJson : Json State := { len := fun _ => 1, marshal := id, unmarshal := .ok }

theorem plainJson_lawful : plainJson.Lawful :=
  ⟨fun _ => Nat.one_pos, fun s => ⟨s, rfl, rfl, rfl, rfl, fun _ => rfl⟩⟩

/-- Two replicas with the default options that run the operations of the
document. -/
def twoReplicas : Setup Bool store.Op Reply State :=
  { key := "state.json"
    cfg := fun _ => { labels := ∅, ttl := 1000000000, maxAttempts := 5, maxBytes := 716800 }
    json := plainJson
    sem := fun m now s => m.apply now s }

/-- A step without faults, one nanosecond after the zero time. -/
def calm : Env := { now := 1, done := false, fault := .delivered, gap := 0 }

def steps {ι : Type} (is : List ι) : List (ι × Env) := is.map fun i => (i, calm)

end prom_fleet.secretstore
