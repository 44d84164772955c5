-- The Secret-backed store. Each replica keeps the last Secret it saw, serves reads from it for
-- a short time, and writes with a compare-and-swap on the resource version. A call is a program
-- of critical sections of the mutex, requests at the API server and readings of the clock.
import PromFleet.Codec
import PromFleet.Interleave
import PromFleet.KubeSecret

namespace prom_fleet.secretstore

open interleave kube store

/-! ## The shared state -/

/-- The options of a replica's `Store` after `Open`. -/
structure Config where
  labels : StrMap String
  ttl : Int
  maxAttempts : Nat
  maxBytes : Int

/-- What the replicas share: the key of the document, the JSON encoding, and
what a mutation does to the document at a reading of the clock. -/
structure Setup (ρ μ β Blob : Type) where
  key : String
  cfg : ρ → Config
  json : Json Blob
  sem : μ → Int → State → Except store.Err (Applied β)

/-- The memory of a replica behind its mutex. `newest` is no field of the
source: it records the greatest version that was ever cached here. -/
structure Mem (Blob : Type) where
  cached : Option (Secret Blob)
  cachedAt : Int
  size : Nat
  closed : Bool
  newest : Nat

/-- Who wrote a version: the call, its mutation and the reading of the clock it
was made at. The first version has none. -/
abbrev Note (ι μ : Type) := Option (ι × μ × Int)

structure World (ρ ι μ Blob : Type) where
  server : List (Version Blob (Note ι μ))
  mem : ρ → Mem Blob

/-- What the environment decides at a step: the reading of the clock, whether
the context has ended, what the network does and how far the server moves the
resource version. -/
structure Env where
  now : Int
  done : Bool
  fault : Fault
  gap : Nat

/-! ## Operations -/

/-- The atomic operations of a call at replica `r`. An update names the mutation
it carries and the reading it was made at, for the note on the version. -/
inductive Op (ρ μ Blob : Type) where
  | isClosed (r : ρ)
  | ctxDone
  | cachedSecret (r : ρ)
  | cache (r : ρ) (sec : Secret Blob)
  | invalidate (r : ρ)
  | now (r : ρ)
  | getSecret
  | createSecret (sec : Secret Blob)
  | updateSecret (sec : Secret Blob) (m : μ) (t : Int)
  | sleep
  | close (r : ρ)

abbrev Ans {ρ μ Blob : Type} : Op ρ μ Blob → Type
  | .isClosed _ => Bool
  | .ctxDone => Bool
  | .cachedSecret _ => Option (Secret Blob)
  | .cache _ _ => Unit
  | .invalidate _ => Unit
  | .now _ => Int
  | .getSecret => Except kube.Err (Secret Blob)
  | .createSecret _ => Except kube.Err (Secret Blob)
  | .updateSecret _ _ _ => Except kube.Err (Secret Blob)
  | .sleep => Bool
  | .close _ => Unit

variable {ρ ι μ β Blob : Type}

/-- `Store.cachedSecret`: the cached Secret if it is still fresh. -/
def Mem.fresh (m : Mem Blob) (ttl now : Int) : Option (Secret Blob) :=
  if ttl ≤ 0 ∨ now - m.cachedAt ≥ ttl then none else m.cached

/-- `Store.cache`. -/
def Mem.fill (m : Mem Blob) (size : Nat) (now : Int) (sec : Secret Blob) : Mem Blob :=
  { m with cached := some sec, cachedAt := now, size := size
           newest := max m.newest sec.resourceVersion }

def Setup.document (S : Setup ρ μ β Blob) (sec : Secret Blob) : Option Blob :=
  sec.data.lookup S.key

def Setup.sizeOf (S : Setup ρ μ β Blob) (sec : Secret Blob) : Nat :=
  match S.document sec with
  | none => 0
  | some b => S.json.len b

section Machine

variable [DecidableEq ρ]

def World.setMem (w : World ρ ι μ Blob) (r : ρ) (m : Mem Blob) : World ρ ι μ Blob :=
  { w with mem := Function.update w.mem r m }

def act (S : Setup ρ μ β Blob) (i : ι) :
    (o : Op ρ μ Blob) → Env → World ρ ι μ Blob → Option (Ans o × World ρ ι μ Blob)
  | .isClosed r, _, w => some ((w.mem r).closed, w)
  | .ctxDone, e, w => some (e.done, w)
  | .cachedSecret r, e, w => some ((w.mem r).fresh (S.cfg r).ttl e.now, w)
  | .cache r sec, e, w => some ((), w.setMem r ((w.mem r).fill (S.sizeOf sec) e.now sec))
  | .invalidate r, _, w => some ((), w.setMem r { w.mem r with cached := none })
  | .now _, e, w => some (e.now, w)
  | .getSecret, e, w =>
    some ((deliver e.fault w.server (kube.getSecret w.server, w.server)).1, w)
  | .createSecret sec, e, w =>
    let (a, server) := deliver e.fault w.server (kube.createSecret e.gap none sec w.server)
    some (a, { w with server := server })
  | .updateSecret sec m t, e, w =>
    let (a, server) :=
      deliver e.fault w.server (kube.updateSecret e.gap (some (i, m, t)) sec w.server)
    some (a, { w with server := server })
  | .sleep, e, w => some (e.done, w)
  | .close r, _, w => some ((), w.setMem r { w.mem r with cached := none, closed := true })

def machine (S : Setup ρ μ β Blob) : Machine (@Ans ρ μ Blob) ι Env (World ρ ι μ Blob) where
  act := act S

end Machine

/-! ## Programs -/

abbrev Call (ρ μ Blob α : Type) := Prog (@Ans ρ μ Blob) α

variable (r : ρ)

abbrev isClosed : Call ρ μ Blob Bool := Prog.call (.isClosed r : Op ρ μ Blob)

abbrev ctxDone : Call ρ μ Blob Bool := Prog.call (.ctxDone : Op ρ μ Blob)

abbrev cachedSecret : Call ρ μ Blob (Option (Secret Blob)) :=
  Prog.call (.cachedSecret r : Op ρ μ Blob)

abbrev cache (sec : Secret Blob) : Call ρ μ Blob Unit :=
  Prog.call (.cache r sec : Op ρ μ Blob)

abbrev invalidate : Call ρ μ Blob Unit := Prog.call (.invalidate r : Op ρ μ Blob)

abbrev now : Call ρ μ Blob Int := Prog.call (.now r : Op ρ μ Blob)

abbrev getSecret : Call ρ μ Blob (Except kube.Err (Secret Blob)) :=
  Prog.call (.getSecret : Op ρ μ Blob)

abbrev createSecret (sec : Secret Blob) : Call ρ μ Blob (Except kube.Err (Secret Blob)) :=
  Prog.call (.createSecret sec : Op ρ μ Blob)

abbrev updateSecret (sec : Secret Blob) (m : μ) (t : Int) :
    Call ρ μ Blob (Except kube.Err (Secret Blob)) :=
  Prog.call (.updateSecret sec m t : Op ρ μ Blob)

abbrev sleep : Call ρ μ Blob Bool := Prog.call (.sleep : Op ρ μ Blob)

inductive LoadErr where
  | get (e : kube.Err)
  | create (e : kube.Err)
  | reread (e : kube.Err)
  deriving DecidableEq

/-- The Secret that a first use creates: an empty document and the labels. -/
def Setup.empty (S : Setup ρ μ β Blob) (r : ρ) : Secret Blob :=
  { resourceVersion := 0, data := Finmap.insert S.key (encode S.json newState) ∅
    labels := (S.cfg r).labels, annotations := ∅ }

/-- The part of `load` that goes to the API server. -/
def fetch (S : Setup ρ μ β Blob) (r : ρ) : Call ρ μ Blob (Except LoadErr (Secret Blob)) := do
  match ← getSecret with
  | .ok sec =>
    cache r sec
    return .ok sec
  | .error .notFound =>
    match ← createSecret (S.empty r) with
    | .ok created =>
      cache r created
      return .ok created
    | .error .alreadyExists =>
      match ← getSecret with
      | .ok sec =>
        cache r sec
        return .ok sec
      | .error e => return .error (.reread e)
    | .error e => return .error (.create e)
  | .error e => return .error (.get e)

def load (S : Setup ρ μ β Blob) (r : ρ) (fresh : Bool) :
    Call ρ μ Blob (Except LoadErr (Secret Blob)) := do
  if !fresh then
    if let some sec ← cachedSecret r then
      return .ok sec
  fetch S r

/-- How a call of `mutate` ended. Only `unchanged` and `committed` return nil. -/
inductive Exit (β Blob : Type) where
  | canceled
  | closed
  | loadFailed (e : LoadErr)
  | decodeFailed (e : store.Err)
  | refused (e : store.Err)
  | unchanged (b : β)
  | tooLarge (e : store.Err)
  | committed (b : β) (sec : Secret Blob)
  | updateFailed (e : kube.Err)
  | interrupted
  | exhausted

/-- One round of the loop of `mutate`. No exit means a conflict. -/
def attempt (S : Setup ρ μ β Blob) (r : ρ) (m : μ) (fresh : Bool) :
    Call ρ μ Blob (Option (Exit β Blob)) := do
  match ← load S r fresh with
  | .error e => return some (.loadFailed e)
  | .ok sec =>
    match decode S.json (S.document sec) with
    | .error e => return some (.decodeFailed e)
    | .ok st =>
      let t ← now r
      match S.sem m t st with
      | .error e => return some (.refused e)
      | .ok a =>
        if !a.changed then return some (.unchanged a.result)
        match encodeWithin S.json (S.cfg r).maxBytes a.state with
        | .error e => return some (.tooLarge e)
        | .ok encoded =>
          let data := sec.data.insert S.key encoded
          match ← updateSecret { sec with data := data } m t with
          | .ok updated =>
            cache r updated
            return some (.committed a.result updated)
          | .error .conflict => return none
          | .error e => return some (.updateFailed e)

/-- The loop of `mutate` with so many attempts left. Each attempt but the first
one reads afresh. -/
def attempts (S : Setup ρ μ β Blob) (r : ρ) (m : μ) :
    Nat → Bool → Call ρ μ Blob (Exit β Blob)
  | 0, _ => return .exhausted
  | n + 1, fresh => do
    match ← attempt S r m fresh with
    | some x => return x
    | none =>
      invalidate r
      if ← sleep then return .interrupted
      attempts S r m n true

def mutate (S : Setup ρ μ β Blob) (r : ρ) (m : μ) : Call ρ μ Blob (Exit β Blob) := do
  let closed ← isClosed r
  if ← ctxDone then return .canceled
  if closed then return .closed
  attempts S r m (S.cfg r).maxAttempts false

inductive ReadErr where
  | canceled
  | closed
  | load (e : LoadErr)
  | decode (e : store.Err)
  deriving DecidableEq

def read (S : Setup ρ μ β Blob) (r : ρ) : Call ρ μ Blob (Except ReadErr State) := do
  let closed ← isClosed r
  if ← ctxDone then return .error .canceled
  if closed then return .error .closed
  match ← load S r false with
  | .error e => return .error (.load e)
  | .ok sec =>
    match decode S.json (S.document sec) with
    | .error e => return .error (.decode e)
    | .ok st => return .ok st

def close : Call ρ μ Blob Unit := Prog.call (.close r : Op ρ μ Blob)

end prom_fleet.secretstore
