-- Revocation on one replica, end to end: the handshakes that ask for the serial of a
-- session, the refreshes of the cache that answers them, and the passes of the enforcer over
-- the registry. The store, the cache and the registry stand side by side under one clock, and
-- the machine keeps a record of its operations: when a revocation was committed, how long a
-- refresh has held its mutex and when a call began.
import PromFleet.Revocation
import PromFleet.RegistrySweep

namespace prom_fleet.enforcer

open interleave store map_range hub revocation registry

/-! ## The replica -/

/-- The options of a replica: those of its registry, and for how long its cache trusts a
refresh. -/
structure Replica where
  registry : registry.Config
  ttl : Int
  ttl_pos : 0 < ttl

/-- What the environment decides at a step: the time, the order in which the list of
revocations is visited, and what the registry asks of the spokes. Every read of the store
succeeds. -/
structure Env where
  now : Int
  visits : Range String RevokedCert
  spokes : registry.Env

def Env.store (e : Env) : revocation.Env :=
  { now := e.now, up := true, rootNotAfter := 0, serialNumber := 0, visits := e.visits }

def Env.registry (e : Env) : registry.Env := { e.spokes with now := e.now }

abbrev Op := (HubOp ⊕ CacheOp Unit) ⊕ RegOp

abbrev Ans := Either (Either HubAns (@CacheAns Unit)) RegAns

/-- The clock, the store with the cache, and the registry. -/
abbrev World := Int × ((Hub × (Unit → RevocationCache)) × Reg)

abbrev docOf (w : World) : State := w.2.1.1.doc

abbrev cacheOf (w : World) : RevocationCache := w.2.1.2 ()

abbrev regOf (w : World) : Reg := w.2.2

variable {ι : Type}

def storeMachine : Machine HubAns ι Env Hub where
  act _ o e h := hubAct o e.store h

def poolMachine (cfg : registry.Config) : Machine RegAns ι Env Reg where
  act _ o e r := some (regAct cfg o e.registry r)

variable (R : Replica)

def machine : Machine Ans ι Env World :=
  ((storeMachine.sum (cacheMachine Env.now)).sum (poolMachine R.registry)).clocked Env.now

/-! ## The calls -/

abbrev Call (α : Type) := Prog Ans α

/-- The two reads of the store, as every process has them. -/
def keeper : Keeper Unit HubAns StoreErr := { revocation.keeper () with ttl := R.ttl }

/-- One evaluation of `revocationCache.isRevoked`. -/
def isRevoked (serial : String) : Call Bool := (hub.isRevoked (keeper R) serial).inl

def refresh : Call (Except StoreErr Refreshed) := (hub.refresh (keeper R)).inl

inductive Admission where
  | revoked
  | unproven
  | onSession (x : Except registry.Err Ref)

/-- A handshake from its question for the serial on: `authenticate` refuses a revoked one,
makes the rest of its checks (`proven`), and the session goes to `OnSession`. -/
def handshake (s : Session) (proven : Bool) : Call Admission := do
  let revoked ← isRevoked R s.identity.certSerial
  if revoked then return .revoked
  else if !proven then return .unproven
  else return .onSession (← (registry.onSession R.registry (some s)).inr)

/-- The loop of `CloseRevokedBy`, for a predicate that is a program of any machine. -/
def judge {O : Type} {A : O → Type} (isRevoked : String → Prog A Bool) :
    List Victim → StrMap Bool → Prog A (List Victim)
  | [], _ => return []
  | c :: cs, verdict => do
    let revoked ←
      match verdict.lookup c.certSerial with
      | some revoked => pure revoked
      | none => isRevoked c.certSerial
    let victims ← judge isRevoked cs (verdict.insert c.certSerial revoked)
    return if revoked then c :: victims else victims

/-- `CloseRevokedBy` with the cache as its predicate. -/
def closeRevokedBy (isRevoked : String → Call Bool) : Call (List String) := do
  let candidates ← (Prog.call RegOp.candidates : registry.Call (List Victim)).inr
  let victims ← judge isRevoked candidates ∅
  (registry.closeVictims victims).inr

/-- `RevocationEnforcer.Enforce`, without its audit event. -/
def enforce : Call (List String) := closeRevokedBy (isRevoked R)

/-! ## The system -/

/-- What can happen at the replica and at its store. -/
inductive Request where
  | isRevoked (serial : String)
  | handshake (s : Session) (proven : Bool)
  | refresh
  | enforce
  | pollFacts (key : String) (ref : Ref) (s : Session) (ticks : Nat)
  | release (id key : String) (ref : Ref)
  | closeRevoked (serials : List String)
  | sweep
  | close
  | revokeCert (rc : RevokedCert)
  | prune (order : PruneOrder) (retain : Int)
  | keys (op : store.Op)

inductive Reply where
  | verdict (revoked : Bool)
  | handshake (x : Admission)
  | refreshed (x : Except StoreErr Refreshed)
  | enforced (ids : List String)
  | closed (ids : List String)
  | stored (ok : Bool)
  | finished

def Request.program : Request → Call Reply
  | .isRevoked serial => do return .verdict (← enforcer.isRevoked R serial)
  | .handshake s proven => do return .handshake (← enforcer.handshake R s proven)
  | .refresh => do return .refreshed (← enforcer.refresh R)
  | .enforce => do return .enforced (← enforcer.enforce R)
  | .pollFacts key ref s ticks => do
    (registry.pollFacts R.registry s.identity.clusterID key ref s ticks).inr
    return .finished
  | .release id key ref => do
    (registry.release id key ref).inr
    return .finished
  | .closeRevoked serials => do return .closed (← (registry.closeRevoked serials).inr)
  | .sweep => do
    registry.sweep.inr
    return .finished
  | .close => do
    registry.close.inr
    return .finished
  | .revokeCert rc => do return .stored (← (revocation.revokeCert rc).inl)
  | .prune order retain => do
    (revocation.prune order retain).inl
    return .finished
  | .keys op => do
    (mutateKeys op).inl
    return .finished

/-! ## The record -/

/-- The operations so far, each with the call that did it. -/
abbrev Record (ι : Type) := List (ι × Event Ans Env World)

/-- The calls of a replica that starts at `time` with an empty cache and no session. -/
def system (doc : State) (time : Int) (calls : ι → Request) : Conf Ans ι (World × Record ι) Reply :=
  { shared := ((time, (initial doc time).2, (registry.empty Unit).reg), [])
    thread := fun i => (calls i).program R }

/-- Some call has come to an evaluation for `s`. What it would do after that is left out. -/
def evaluating [DecidableEq ι] (R : Replica) (s : String) (i : ι)
    (c : Conf Ans ι (World × Record ι) Reply) : Conf Ans ι (World × Record ι) Reply :=
  { c with thread := Function.update c.thread i ((Request.isRevoked s).program R) }

/-- When a revocation was committed, and the epoch that it made. -/
structure Commit where
  time : Int
  epoch : Nat
  deriving DecidableEq

/-- The operation commits a revocation of `s` that lasts until `n`. -/
def commits (s : String) (n : Int) : (o : Op) → Ans o → Bool
  | .inl (.inl (.revokeCert rc)), stored => stored && decide (rc.serial = s) && certLive n rc
  | _, _ => false

/-- The first revocation of `s` that lasts until `n`. -/
def committed (s : String) (n : Int) (log : Record ι) : Option Commit :=
  (log.find? fun x => commits s n x.2.op x.2.ans).map fun x =>
    ⟨x.2.after.1, (docOf x.2.after).epoch⟩

/-- Who holds the refresh mutex after an operation, and since when. -/
def holderAfter (h : Option (ι × Int)) (x : ι × Event Ans Env World) : Option (ι × Int) :=
  match x.2.op with
  | .inl (.inr (.lock _)) => some (x.1, x.2.after.1)
  | .inl (.inr (.unlock _)) => none
  | _ => h

def holder (log : Record ι) : Option (ι × Int) := log.foldl holderAfter none

/-- The time of the first operation of a call. -/
def begun [DecidableEq ι] (i : ι) (log : Record ι) : Option Int :=
  (own i log).head?.map fun ev => ev.after.1

/-! ## The bounds -/

/-- How long a refresh takes at most, and an admission from the begin of its evaluation to
the insertion of its session. -/
structure Bounds where
  refresh : Int
  admission : Int
  refresh_nonneg : 0 ≤ refresh
  admission_nonneg : 0 ≤ admission

/-- The step keeps to the bounds. A refresh has its stamp in time after it took its mutex, an
admission its slot after its first operation. No later revocation of `s` ends before `n`. -/
def timely [DecidableEq ι] (B : Bounds) (s : String) (n : Int) (i : ι) (o : Op) (e : Env)
    (x : World × Record ι) : Bool :=
  match o with
  | .inl (.inr (.touch _ _)) => (holder x.2).all fun h => decide (e.now ≤ h.2 + B.refresh)
  | .inl (.inr (.install _ _ _ _)) => (holder x.2).all fun h => decide (e.now ≤ h.2 + B.refresh)
  | .inr (.attach _ _) => (begun i x.2).all fun t => decide (e.now ≤ t + B.admission)
  | .inl (.inl (.revokeCert rc)) =>
    decide (rc.serial ≠ s) || (committed s n x.2).isNone || certLive n rc
  | _ => true

/-- A session with the serial `s` is in the registry. -/
def Serves (s : String) (r : Reg) (id key : String) (ref : Ref) : Prop :=
  r.occupant id key = some ref ∧ ∃ sl, r.heap[ref]? = some sl ∧ sl.certSerial = s

end prom_fleet.enforcer
