-- The gauges of the registry. A call computes its numbers inside the critical section and
-- reports them after it has left the lock, one report at a time.
import PromFleet.RegistryCalls
import PromFleet.Publish

namespace prom_fleet.registry_gauges

open interleave Prog registry

/-! ## The numbers -/

/-- `len(e.slots)` of the pool of a cluster. -/
def poolSize (r : Reg) (id : String) : Nat :=
  ((r.entries.lookup id).map fun e => e.slots.keys.card).getD 0

/-- `connectedLocked`: how many clusters have a slot in their pool. -/
def connectedLocked (r : Reg) : Nat :=
  (r.entries.keys.filter fun id => 0 < poolSize r id).card

/-- The pool sizes that the loop of `closeVictims` notes, one for each session it detaches. -/
def closureSizes (grace now : Int) : List Victim → Reg → List Nat
  | [], _ => []
  | v :: vs, r =>
    match r.holder v.id v.key v.slot with
    | none => closureSizes grace now vs r
    | some (e, sl) =>
      let r := r.detachLocked grace v.id e v.key sl now
      poolSize r v.id :: closureSizes grace now vs r

/-- The numbers that a section computes for the metrics, beside its own answer. -/
abbrev Figures : RegOp → Type
  | .attach _ _ => Nat × Nat
  | .release .. => Option (Nat × Nat)
  | .closeVictims _ _ => List Nat × Nat
  | .close => Option (List String)
  | _ => Unit

variable (cfg : Config)

def figures : (o : RegOp) → Env → Reg → Figures o
  | .attach key sl, _, r =>
    let r := (r.attach key sl).2
    (connectedLocked r, poolSize r sl.session.identity.clusterID)
  | .release id key ref now, _, r =>
    (r.holder id key ref).map fun _ =>
      let r := r.release cfg.grace id key ref now
      (poolSize r id, connectedLocked r)
  | .closeVictims vs now, _, r =>
    (closureSizes cfg.grace now vs r, connectedLocked (Reg.closeVictims cfg.grace now vs r).2)
  | .close, e, r =>
    if r.closed then none
    else some ((e.orders.entries.list r.entries).flatMap fun x =>
      (e.orders.slots.list x.2.slots).map fun _ => x.1)
  | .clock, _, _ => ()
  | .isClosed, _, _ => ()
  | .describe _ _, _, _ => ()
  | .generation _, _, _ => ()
  | .nextAnon, _, _ => ()
  | .authoritativeLabels _, _, _ => ()
  | .fingerprint _, _, _ => ()
  | .spokeLabels _, _, _ => ()
  | .apply .., _, _ => ()
  | .candidates, _, _ => ()
  | .isRevoked _, _, _ => ()
  | .sweep _, _, _ => ()
  | .closeSession _, _, _ => ()

/-! ## The metrics -/

/-- A call of `Metrics`, or of its extension `SessionsGauge`. -/
inductive Report where
  | spokeConnected (id : String) (connected : Bool)
  | spokesConnected (n : Nat)
  | sessionsPerCluster (id : String) (n : Nat)
  deriving DecidableEq

/-- The gauge that a report sets. -/
inductive Gauge where
  | spoke (id : String)
  | spokes
  | sessions (id : String)
  deriving DecidableEq

def Report.gauge : Report → Gauge
  | .spokeConnected id _ => .spoke id
  | .spokesConnected _ => .spokes
  | .sessionsPerCluster id _ => .sessions id

/-- The registry and the reports that it has made, the last one first. -/
structure World where
  reg : Reg
  reports : List Report

inductive Op where
  | reg (o : RegOp)
  | report (x : Report)

abbrev Ans : Op → Type
  | .reg o => RegAns o × Figures o
  | .report _ => Unit

def act : (o : Op) → Env → World → Ans o × World
  | .reg o, e, w =>
    (((regAct cfg o e w.reg).1, figures cfg o e w.reg), { w with reg := (regAct cfg o e w.reg).2 })
  | .report x, _, w => ((), { w with reports := x :: w.reports })

abbrev Record (ι : Type) := List (ι × Event Ans Env World)

/-- The registry with its metrics, and the record of what its calls have done. -/
def machine (ι : Type) (cfg : Config) : Machine Ans ι Env (World × Record ι) :=
  Machine.recorded ⟨fun _ o e w => some (act cfg o e w)⟩

/-! ## The calls -/

abbrev Call (α : Type) := Prog Ans α

/-- A part of a call that reports nothing. -/
def lift {α : Type} : registry.Call α → Call α
  | .done a => .done a
  | .op o k => .op (.reg o) fun x => lift (k x.1)

def report (x : Report) : Call Unit := Prog.call (Op.report x)

variable (s : Option Session)

/-- What `OnSession` does before its critical section: the key and the slot of the session. -/
def prepare : registry.Call (Except Err (String × Slot)) := do
  match s with
  | none => return .error (.rejected .nilSession)
  | some s =>
    let ident := s.identity
    if ident.clusterID = "" then return .error (.rejected .noClusterID)
    let id := ident.clusterID
    let closed ← (Prog.call RegOp.isClosed : registry.Call Bool)
    if closed then return .error (.rejected .closed)
    match ← (Prog.call (RegOp.describe s "") : registry.Call (Option Facts)) with
    | none => return .error (.rejected (.describe id))
    | some facts =>
      let gen ← (Prog.call (RegOp.generation s) : registry.Call Int)
      let key ← slotKey ident
      match ← clusterFrom cfg id ident facts.cluster with
      | none => return .error (.rejected (.labels id))
      | some cluster =>
        return .ok (key,
          { session := s
            generation := if gen = 0 then facts.generation else gen
            fingerprint := facts.fingerprint
            certSerial := ident.certSerial
            facts := cluster
            spokeLabels := facts.cluster.labels })

/-- The critical section of `OnSession` and what follows it, without the metrics. -/
def attachPrepared : Except Err (String × Slot) → registry.Call (Except Err Ref)
  | .error e => return .error e
  | .ok (key, sl) => do
    match ← (Prog.call (RegOp.attach key sl) : registry.Call (Except Err (Ref × Option Ref))) with
    | .error e => return .error e
    | .ok (ref, none) => return .ok ref
    | .ok (ref, some prev) =>
      let _ ← (Prog.call (RegOp.closeSession prev) : registry.Call Unit)
      return .ok ref

/-- The registry without its metrics prepares its sessions in the same way. -/
theorem onSession_eq_prepare :
    registry.onSession cfg s = prepare cfg s >>= attachPrepared := by
  cases s with
  | none => rfl
  | some s =>
    unfold registry.onSession prepare
    dsimp only
    split
    · rfl
    simp only [call_bind, op_bind]
    congr 1
    funext closed
    cases closed with
    | true => rfl
    | false =>
      simp only [Bool.false_eq_true, if_false, op_bind]
      congr 1
      funext reply
      cases reply with
      | none => rfl
      | some facts =>
        simp only [op_bind, bind_assoc]
        congr 1
        funext gen
        congr 1
        funext key
        congr 1
        funext cluster
        cases cluster <;> rfl

def onSession : Call (Except Err Ref) := do
  match ← lift (prepare cfg s) with
  | .error e => return .error e
  | .ok (key, sl) =>
    let id := sl.session.identity.clusterID
    let (answer, n, size) ← (Prog.call (Op.reg (.attach key sl)) :
      Call (Except Err (Ref × Option Ref) × Nat × Nat))
    match answer with
    | .error e => return .error e
    | .ok (ref, prev) =>
      lift (closeSessions prev.toList)
      report (.spokeConnected id true)
      report (.spokesConnected n)
      report (.sessionsPerCluster id size)
      return .ok ref

/-- `release`. A slot that was displaced reports nothing. -/
def release (id key : String) (ref : Ref) : Call Unit := do
  let now ← lift clock
  let (_, figures) ← (Prog.call (Op.reg (.release id key ref now)) :
    Call (Unit × Option (Nat × Nat)))
  match figures with
  | none => return ()
  | some (size, n) =>
    report (.spokeConnected id (decide (0 < size)))
    report (.spokesConnected n)
    report (.sessionsPerCluster id size)

/-- The loop of `closeVictims` after its critical section. -/
def closeLoop : List (Victim × Nat) → Call Unit
  | [] => return ()
  | (v, size) :: rest => do
    lift (closeSessions [v.slot])
    report (.spokeConnected v.id (decide (0 < size)))
    report (.sessionsPerCluster v.id size)
    closeLoop rest

/-- `closeVictims` after its critical section. -/
def closeDetached (closures : List Victim) (sizes : List Nat) (n : Nat) : Call (List String) := do
  if closures = [] then return []
  closeLoop (closures.zip sizes)
  report (.spokesConnected n)
  return (closures.map fun v => v.id).insertionSort fun a b => a ≤ b

def closeVictims (victims : List Victim) : Call (List String) := do
  if victims = [] then return []
  let now ← lift clock
  let (closures, sizes, n) ← (Prog.call (Op.reg (.closeVictims victims now)) :
    Call (List Victim × List Nat × Nat))
  closeDetached closures sizes n

def closeRevokedBy (isRevoked : String → registry.Call Bool) : Call (List String) := do
  let candidates ← lift (Prog.call RegOp.candidates)
  let victims ← lift (judge isRevoked candidates ∅)
  closeVictims victims

def closeRevoked (serials : List String) : Call (List String) := do
  if serials = [] then return []
  closeRevokedBy fun serial => return decide (serial ∈ serials)

/-- The loop of `Close` over the clusters of the sessions it has closed, each of them once. -/
def reportClosed : List String → List String → Call Unit
  | _, [] => return ()
  | seen, id :: ids =>
    if id ∈ seen then reportClosed seen ids
    else do
      report (.spokeConnected id false)
      report (.sessionsPerCluster id 0)
      reportClosed (id :: seen) ids

def close : Call Unit := do
  let (targets, figures) ← (Prog.call (Op.reg .close) : Call (List Ref × Option (List String)))
  match figures with
  | none => return ()
  | some ids =>
    lift (closeSessions targets)
    reportClosed [] ids
    report (.spokesConnected 0)

def program : Request → Call Reply
  | .onSession s => do return .admitted (← onSession cfg s)
  | .pollFacts key ref s ticks => do
    lift (pollFacts cfg s.identity.clusterID key ref s ticks)
    return .done
  | .release id key ref => do
    release id key ref
    return .done
  | .closeRevokedBy => do
    return .closed (← closeRevokedBy fun serial => Prog.call (RegOp.isRevoked serial))
  | .closeRevoked serials => do return .closed (← closeRevoked serials)
  | .sweep => do
    lift sweep
    return .done
  | .close => do
    close
    return .done

/-- The calls of a registry that has just been made. -/
def start {ι : Type} (cfg : Config) (calls : ι → Request) : Conf Ans ι (World × Record ι) Reply :=
  { shared := (⟨⟨[], ∅, false, 0⟩, []⟩, []), thread := fun i => program cfg (calls i) }

/-! ## What the gauges show -/

/-- The last value of `SpokesConnected`. A gauge that nobody has set reads as zero. -/
def lastSpokes : List Report → Nat
  | [] => 0
  | .spokesConnected n :: _ => n
  | _ :: xs => lastSpokes xs

/-- The last value of `SpokeConnected` for a cluster. -/
def lastSpoke (id : String) : List Report → Bool
  | [] => false
  | .spokeConnected id' connected :: xs => if id' = id then connected else lastSpoke id xs
  | _ :: xs => lastSpoke id xs

/-- The last value of `SessionsPerCluster` for a cluster. -/
def lastSessions (id : String) : List Report → Nat
  | [] => 0
  | .sessionsPerCluster id' n :: xs => if id' = id then n else lastSessions id xs
  | _ :: xs => lastSessions id xs

end prom_fleet.registry_gauges
