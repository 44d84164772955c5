-- The store in one JSON file: every call decodes the bytes it has in memory, works on that
-- copy, and a change is written to a new file that takes the place of the old one.
import PromFleet.StoreReference

namespace prom_fleet.filestore

open store

variable {Blob : Type}

/-! ## The store -/

/-- `filestore.Store`, with the content of the file. -/
structure Store (Blob : Type) where
  file : Blob
  data : Blob
  closed : Bool

/-- The steps of `write` that can fail. -/
inductive WriteStep where
  | createTemp
  | write
  | sync
  | close
  | rename
  deriving DecidableEq

/-- What the environment decides for a call: the reading of the clock, whether the context
has ended, and the step of the write that fails, if one does. -/
structure Env where
  now : Int
  done : Bool
  fault : Option WriteStep

inductive Failure where
  | canceled
  | closed
  | decode (e : Err)
  | refused (e : Err)
  | tooLarge (e : Err)
  | io (step : WriteStep)
  deriving DecidableEq

/-- The directory during a write: the file, and the temporary file with what is in it. -/
structure Dir (Blob : Type) where
  file : Blob
  temp : Option (Option Blob)

/-- A step of a write of these bytes that does not fail. -/
def WriteStep.run (b : Blob) : WriteStep → Dir Blob → Dir Blob
  | .createTemp, d => { d with temp := some none }
  | .write, d => { d with temp := some (some b) }
  | .sync, d | .close, d => d
  | .rename, d => { file := d.temp.join.getD d.file, temp := none }

/-- The steps one after the other, up to the one that fails. -/
def runSteps (fault : Option WriteStep) (b : Blob) :
    List WriteStep → Dir Blob → Except Failure Unit × Dir Blob
  | [], d => (.ok (), d)
  | step :: steps, d =>
    if fault = some step then (.error (.io step), d) else runSteps fault b steps (step.run b d)

/-- The steps of a write before the rename. -/
def prepareSteps : List WriteStep := [.createTemp, .write, .sync, .close]

/-- `Store.write`. The temporary file is removed at the end in any case. -/
def Store.write (s : Store Blob) (fault : Option WriteStep) (b : Blob) :
    Except Failure Unit × Store Blob :=
  match runSteps fault b (prepareSteps ++ [.rename]) ⟨s.file, none⟩ with
  | (.error f, d) => (.error f, { s with file := d.file })
  | (.ok (), d) => (.ok (), { s with file := d.file, data := b })

/-- Only the rename touches the file, so a write that fails leaves it. -/
theorem file_runSteps {fault : Option WriteStep} {b : Blob} (steps : List WriteStep)
    (hsteps : .rename ∉ steps) (d : Dir Blob)
    (h : (runSteps fault b (steps ++ [.rename]) d).1 ≠ .ok ()) :
    (runSteps fault b (steps ++ [.rename]) d).2.file = d.file := by
  induction steps generalizing d with
  | nil =>
    simp only [List.nil_append, runSteps] at h ⊢
    split
    · rfl
    · rename_i hfault
      exact absurd rfl (if_neg hfault ▸ h)
  | cons step steps ih =>
    simp only [List.cons_append, runSteps] at h ⊢
    split
    · rfl
    · rename_i hfault
      rw [if_neg hfault] at h
      rw [ih (fun hin => hsteps (.tail _ hin)) _ h]
      cases step with
      | rename => exact absurd (.head _) hsteps
      | _ => rfl

theorem write_failed (s : Store Blob) (step : WriteStep) (b : Blob) :
    s.write (some step) b = (.error (.io step), s) := by
  have herror : (runSteps (some step) b (prepareSteps ++ [.rename]) ⟨s.file, none⟩).1 =
      .error (.io step) := by
    cases step <;> rfl
  have hfile := file_runSteps prepareSteps (by decide) ⟨s.file, none⟩
    (fun hok => by cases herror.symm.trans hok)
  unfold Store.write
  generalize runSteps (some step) b (prepareSteps ++ [.rename]) ⟨s.file, none⟩ = r at *
  obtain ⟨x, d⟩ := r
  cases herror
  exact congrArg (fun file => (_, { s with file := file })) hfile

/-- `Open`, for the content of the file if there is one. -/
def open_ (json : Json Blob) (file : Option Blob) : Except Err (Store Blob) :=
  match file with
  | none => .ok { file := encode json newState, data := encode json newState, closed := false }
  | some raw => (decode json (some raw)).map fun _ => { file := raw, data := raw, closed := false }

variable (json : Json Blob) (max : Int)

def Store.read (s : Store Blob) (done : Bool) : Except Failure State :=
  if done then .error .canceled
  else if s.closed then .error .closed
  else (decode json (some s.data)).mapError .decode

/-- How a call of `mutate` ended. A failure comes with what the method had reported. -/
inductive Exit (β : Type) where
  | failed (f : Failure) (changed : Bool)
  | ended (changed : Bool) (r : β)

def Store.mutate {β : Type} (s : Store Blob) (e : Env) (method : InPlace (Bool × β)) :
    Exit β × Store Blob :=
  match s.read json e.done with
  | .error f => (.failed f false, s)
  | .ok st =>
    match method.run st with
    | (.error err, _) => (.failed (.refused err) false, s)
    | (.ok (changed, r), st') =>
      if !changed then (.ended false r, s)
      else
        match encodeWithin json max st' with
        | .error err => (.failed (.tooLarge err) true, s)
        | .ok encoded =>
          match s.write e.fault encoded with
          | (.error f, s') => (.failed f true, s')
          | (.ok (), s') => (.ended true r, s')

/-- The error that a caller can match. -/
def Failure.response (f : Failure) (stored : Bool) : Response :=
  match f with
  | .refused e | .tooLarge e | .decode e => .failed e stored
  | .canceled | .closed | .io _ => .unavailable

def respond (op : Op) : Exit Reply → Response
  | .failed f changed => f.response (op.beside changed)
  | .ended changed r => .ok (op.answer changed r)

/-- A call of the store. -/
def Store.serve (s : Store Blob) (q : Request) (e : Env) : Response × Store Blob :=
  match q with
  | .mutate op =>
    let x := s.mutate json max e ((op.timed e.now).method e.now)
    (respond op x.1, x.2)
  | q =>
    match s.read json e.done with
    | .error f => (f.response false, s)
    | .ok st => (q.read st, s)

/-- What the calls return, each with the store after it. -/
def Store.serveAll : Store Blob → List (Request × Env) → List (Response × Store Blob)
  | _, [] => []
  | s, (q, e) :: qs =>
    let x := s.serve json max q e
    x :: x.2.serveAll qs

/-! ## The reference -/

/-- The store is open, and its file decodes to the document. -/
structure Synced (s : Store Blob) (doc : State) : Prop where
  open_ : s.closed = false
  file : s.file = s.data
  decodes : decode json (some s.data) = .ok doc

/-- A store that has been opened holds the document of its file, or an empty one. -/
theorem open_synced (hj : json.RoundTrips) {file : Option Blob} {s : Store Blob}
    (h : open_ json file = .ok s) : ∃ doc, decode json file = .ok doc ∧ Synced json s doc := by
  unfold open_ at h
  cases file with
  | none =>
    cases h
    exact ⟨newState, rfl, rfl, rfl, settled_newState.decode_encode hj⟩
  | some raw =>
    dsimp only at h
    cases hdoc : decode json (some raw) with
    | error e =>
      rw [hdoc] at h
      cases h
    | ok doc =>
      rw [hdoc] at h
      cases h
      exact ⟨doc, rfl, rfl, rfl, hdoc⟩

/-- The context has not ended, and the disk does not fail. -/
def Env.Calm (e : Env) : Prop := e.done = false ∧ e.fault = none

variable {json} {s : Store Blob} {doc : State} {e : Env}

theorem Synced.read (h : Synced json s doc) (he : e.done = false) :
    s.read json e.done = .ok doc := by
  unfold Store.read
  rw [he, h.open_, h.decodes]
  rfl

/-- A call is served as from the document, or its context or the disk has failed it. -/
theorem Synced.serve (hj : json.RoundTrips) (h : Synced json s doc) (q : Request) :
    s.serve json max q e = (.unavailable, s) ∧ ¬e.Calm ∨
      (s.serve json max q e).1 = (inMemory json max q e.now doc).1 ∧
        Synced json (s.serve json max q e).2 (inMemory json max q e.now doc).2 := by
  by_cases hdone : e.done = true
  · refine .inl ⟨?_, by simp [Env.Calm, hdone]⟩
    cases q <;> simp only [Store.serve, Store.mutate, Store.read, hdone] <;> rfl
  rw [Bool.not_eq_true] at hdone
  cases q with
  | mutate op =>
    rw [inMemory_mutate]
    simp only [Store.serve, Store.mutate, h.read hdone, run_method]
    cases happly : (op.timed e.now).apply e.now doc with
    | error err => exact .inr ⟨by simp [left, respond, Failure.response], h⟩
    | ok a =>
      cases hchanged : a.changed with
      | false =>
        simp only [left, hchanged]
        exact .inr ⟨rfl, h⟩
      | true =>
        simp only [left, hchanged]
        cases hwithin : encodeWithin json max a.state with
        | error err => exact .inr ⟨rfl, h⟩
        | ok encoded =>
          -- The disk matters only here, where there is a document to write.
          cases hfault : e.fault with
          | some step =>
            refine .inl ⟨?_, by simp [Env.Calm, hfault]⟩
            simp [write_failed, respond, Failure.response]
          | none =>
            have hdoc : Settled a.state :=
              (apply_effect happly).settled (settled_of_decode hj h.decodes)
            refine .inr ⟨rfl, h.open_, rfl, ?_⟩
            rw [encodeWithin_ok json hwithin]
            exact hdoc.decode_encode hj
  | _ =>
    simp only [Store.serve, h.read hdone]
    exact .inr ⟨rfl, h⟩

theorem Synced.follows (hj : json.RoundTrips) (h : Synced json s doc)
    (qs : List (Request × Env)) (hqs : ∀ x ∈ qs, x.2.Calm) :
    Follows json (fun s => some s.file) doc (s.serveAll json max qs)
      (inMemoryAll json max (qs.map fun x => (x.1, x.2.now)) doc) := by
  induction qs generalizing s doc with
  | nil => trivial
  | cons x qs ih =>
    obtain ⟨q, e⟩ := x
    obtain ⟨he, hrest⟩ := List.forall_mem_cons.mp hqs
    obtain ⟨hresponse, hsynced⟩ := (h.serve max hj q).resolve_left fun hfailed => hfailed.2 he
    have hfile : decode json (some (s.serve json max q e).2.file) =
        .ok (inMemory json max q e.now doc).2 := by
      rw [hsynced.file]
      exact hsynced.decodes
    refine ⟨hresponse, hfile, fun hfailed => ?_, ih hsynced hrest⟩
    exact inMemory_failed json max (hresponse ▸ hfailed)

/-- Whatever calls a store has had, with contexts that ended and writes that failed, the next one
is answered and stored as from the document of the file, or changes nothing. -/
theorem failed_calls_leave_no_trace (hj : json.RoundTrips) {file : Option Blob}
    (hopen : open_ json file = .ok s) (past : List (Request × Env)) :
    let s' := past.foldl (fun s x => (s.serve json max x.1 x.2).2) s
    ∃ doc, decode json (some s'.file) = .ok doc ∧ ∀ q e,
      s'.serve json max q e = (.unavailable, s') ∧ ¬e.Calm ∨
      (s'.serve json max q e).1 = (inMemory json max q e.now doc).1 ∧
        decode json (some (s'.serve json max q e).2.file) =
          .ok (inMemory json max q e.now doc).2 := by
  obtain ⟨doc, -, h⟩ := open_synced json hj hopen
  clear hopen
  induction past generalizing s doc with
  | nil =>
    refine ⟨doc, h.file ▸ h.decodes, fun q e => (h.serve max hj q).imp_right ?_⟩
    exact fun ⟨hanswer, hnext⟩ => ⟨hanswer, hnext.file ▸ hnext.decodes⟩
  | cons x past ih =>
    rcases h.serve max hj (e := x.2) x.1 with ⟨hsame, -⟩ | ⟨-, hnext⟩
    · exact ih doc (by dsimp only; rwa [hsame])
    · exact ih _ hnext

end prom_fleet.filestore
