-- The registry of the hub: a pool of sessions for each cluster, one slot for each spoke pod.
-- A slot is a pointer in the source, so the slots stand in a heap and a pool refers to it.
-- Each critical section of the registry's lock is one operation of the calls.
import PromFleet.Compose
import PromFleet.GoTime
import PromFleet.Identity
import PromFleet.MapRange
import Mathlib.Data.String.Basic

namespace prom_fleet.fleet

/-- `fleet.ClusterState`. A spoke can report any text here. -/
inductive ClusterState where
  | connected
  | disconnected
  | degraded
  | unknown (text : String)
  deriving DecidableEq, Repr

/-- `fleet.Cluster`: the part that decides who sees a cluster and when. The rest of what
a spoke reports is copied along with it. -/
structure Cluster where
  id : String
  labels : StrMap String
  state : ClusterState
  lastSeen : Int
  connectedSince : Int
  certNotAfter : Int
  reachable : Bool
  deriving DecidableEq

/-- The zero value of `fleet.Cluster`. -/
def Cluster.zero : Cluster := ⟨"", ∅, .unknown "", 0, 0, 0, false⟩

/-- `labels[k]` of a Go map. -/
def labelOf (labels : StrMap String) (k : String) : String := (labels.lookup k).getD ""

def Scope.allowsCluster (s : Scope) (id : String) (labels : StrMap String) : Bool :=
  if id ∈ s.clusters.deny then false
  else if ¬∀ k ∈ s.clusters.matchLabels.keys, labelOf labels k = labelOf s.clusters.matchLabels k
  then false
  else if s.clusters.allow = [] then decide (s.clusters.matchLabels ≠ ∅)
  else decide ("*" ∈ s.clusters.allow ∨ id ∈ s.clusters.allow)

end prom_fleet.fleet

namespace prom_fleet.registry

open interleave map_range gotime fleet

/-! ## Sessions and slots -/

/-- `tunnel.Identity`, without the address. -/
structure Identity where
  clusterID : String
  certSerial : String
  certNotAfter : Int
  instanceID : String
  deriving DecidableEq

/-- `tunnel.Session`: what its certificate and its hello say. -/
structure Session where
  identity : Identity
  deriving DecidableEq

structure Facts where
  fingerprint : String
  changed : Bool
  cluster : Cluster
  generation : Int
  deriving DecidableEq

structure Slot where
  session : Session
  generation : Int
  fingerprint : String
  certSerial : String
  facts : Cluster
  spokeLabels : StrMap String
  deriving DecidableEq

/-- A `*slot`. -/
abbrev Ref := Nat

/-- `entry`. The cursor `rr` of the round robin is a `uint64`. -/
structure Entry where
  slots : StrMap Ref
  rr : Nat
  lastCluster : Cluster
  deriving DecidableEq

/-- `Registry`, and every slot that was ever admitted. -/
structure Reg where
  heap : List Slot
  entries : StrMap Entry
  closed : Bool
  anonSeq : Nat

/-- What `New` keeps of the options. The grace window is a duration, and a negative one
has become zero. -/
structure Config where
  grace : Int
  authoritativeLabels : Option (String → StrMap String)
  grace_nonneg : 0 ≤ grace

/-- The labels that the operator has set for a cluster. -/
def Config.owned (cfg : Config) (id : String) : StrMap String :=
  match cfg.authoritativeLabels with
  | none => ∅
  | some labels => labels id

inductive Why where
  | nilSession
  | noClusterID
  | closed
  | describe (id : String)
  | labels (id : String)
  deriving DecidableEq

/-- The errors of `OnSession`: `ErrRejectedSession` with its cause, and
`ErrStaleGeneration` with the two generations. -/
inductive Err where
  | rejected (why : Why)
  | staleGeneration (id : String) (gen prev : Int)
  deriving DecidableEq

/-- `victim`, with the serial that the source reads through the pointer. -/
structure Victim where
  id : String
  key : String
  slot : Ref
  certSerial : String
  deriving DecidableEq

/-! ## The critical sections -/

def connectedState (reachable : Bool) : ClusterState :=
  if reachable then .connected else .degraded

/-- The slot after the locked section of `applyFacts`. -/
def Slot.refresh (sl : Slot) (id : String) (facts : Facts) (reported merged : StrMap String)
    (now : Int) : Slot :=
  if facts.changed then
    { sl with
      facts :=
        { facts.cluster with
          id := id, labels := merged, certNotAfter := sl.facts.certNotAfter,
          connectedSince := sl.facts.connectedSince, lastSeen := now,
          state := connectedState facts.cluster.reachable }
      spokeLabels := reported
      fingerprint := facts.fingerprint }
  else { sl with facts := { sl.facts with lastSeen := now, labels := merged } }

/-- The public view that `detachLocked` freezes when it empties a pool. -/
def frozen (facts : Cluster) (now : Int) : Cluster :=
  { facts with state := .disconnected, lastSeen := now, connectedSince := 0 }

def presentLocked (grace : Int) (e : Entry) (now : Int) : Bool :=
  if e.slots ≠ ∅ then true else decide (timeSub now e.lastCluster.lastSeen ≤ grace)

/-- The order in which the loops over the maps visit them. -/
structure Orders where
  entries : Range String Entry
  slots : Range String Ref

namespace Reg

def occupant (r : Reg) (id key : String) : Option Ref :=
  (r.entries.lookup id).bind fun e => e.slots.lookup key

def slotAt (r : Reg) (id key : String) : Option Slot :=
  (r.occupant id key).bind fun ref => r.heap[ref]?

/-- The entry and the slot behind `e.slots[key] == sl`, the guard of every late call. -/
def holder (r : Reg) (id key : String) (ref : Ref) : Option (Entry × Slot) :=
  (r.entries.lookup id).bind fun e =>
    if e.slots.lookup key = some ref then (r.heap[ref]?).map fun sl => (e, sl) else none

/-- The entry that `OnSession` finds or makes. -/
def entryOf (r : Reg) (id : String) : Entry := (r.entries.lookup id).getD ⟨∅, 0, Cluster.zero⟩

def install (r : Reg) (id key : String) (sl : Slot) : Reg :=
  { r with
    heap := r.heap ++ [sl]
    entries := r.entries.insert id
      { r.entryOf id with slots := (r.entryOf id).slots.insert key r.heap.length } }

/-- The locked section of `OnSession`: the new slot, and the slot it has displaced. -/
def attach (r : Reg) (key : String) (sl : Slot) : Except Err (Ref × Option Ref) × Reg :=
  let id := sl.session.identity.clusterID
  if r.closed then (.error (.rejected .closed), r)
  else
    match r.slotAt id key with
    | some prev =>
      if sl.generation < prev.generation then
        (.error (.staleGeneration id sl.generation prev.generation), r)
      else (.ok (r.heap.length, r.occupant id key), r.install id key sl)
    | none => (.ok (r.heap.length, none), r.install id key sl)

/-- The locked section of `applyFacts`. -/
def apply (r : Reg) (id key : String) (ref : Ref) (facts : Facts)
    (reported merged : StrMap String) (now : Int) : Reg :=
  match r.holder id key ref with
  | none => r
  | some (_, sl) => { r with heap := r.heap.set ref (sl.refresh id facts reported merged now) }

def detachLocked (r : Reg) (grace : Int) (id : String) (e : Entry) (key : String) (sl : Slot)
    (now : Int) : Reg :=
  let slots := e.slots.erase key
  if slots = ∅ then
    if grace = 0 then { r with entries := r.entries.erase id }
    else
      { r with
        entries := r.entries.insert id
          { e with slots := slots, lastCluster := frozen sl.facts now } }
  else { r with entries := r.entries.insert id { e with slots := slots } }

/-- The locked section of `release`. -/
def release (r : Reg) (grace : Int) (id key : String) (ref : Ref) (now : Int) : Reg :=
  match r.holder id key ref with
  | none => r
  | some (e, sl) => r.detachLocked grace id e key sl now

/-- The section of `CloseRevokedBy` that collects the sessions with a certificate. -/
def candidates (r : Reg) (o : Orders) : List Victim :=
  (o.entries.list r.entries).flatMap fun x =>
    (o.slots.list x.2.slots).filterMap fun y =>
      (r.heap[y.2]?).bind fun sl =>
        if sl.certSerial = "" then none else some ⟨x.1, y.1, y.2, sl.certSerial⟩

/-- The locked section of `closeVictims`: the victims that still held their slot. -/
def closeVictims (grace now : Int) : List Victim → Reg → List Victim × Reg
  | [], r => ([], r)
  | v :: vs, r =>
    match r.holder v.id v.key v.slot with
    | none => closeVictims grace now vs r
    | some (e, sl) =>
      let rest := closeVictims grace now vs (r.detachLocked grace v.id e v.key sl now)
      (v :: rest.1, rest.2)

/-- `sweep`: how many entries it drops. -/
def sweep (r : Reg) (grace : Int) (o : Orders) (now : Int) : Nat × Reg :=
  let swept := map_range.sweep (fun _ e => !presentLocked grace e now) (o.entries.list r.entries)
    (r.entries, 0)
  (swept.2, { r with entries := swept.1 })

/-- The locked section of `Close`: the sessions it goes on to close. -/
def close (r : Reg) (o : Orders) : List Ref × Reg :=
  if r.closed then ([], r)
  else
    ((o.entries.list r.entries).flatMap fun x => (o.slots.list x.2.slots).map fun y => y.2,
      { r with closed := true, entries := ∅ })

end Reg

/-! ## The views -/

/-- The variables of the loop of `mergedLocked`. -/
structure Merge where
  freshest : Option Cluster
  lastSeen : Int
  connectedSince : Int
  anyReachable : Bool

def Merge.add (m : Merge) (c : Cluster) : Merge :=
  { freshest :=
      match m.freshest with
      | none => some c
      | some f => if f.lastSeen < c.lastSeen then some c else some f
    lastSeen := if m.lastSeen < c.lastSeen then c.lastSeen else m.lastSeen
    connectedSince :=
      if isZero m.connectedSince || decide (c.connectedSince < m.connectedSince) then
        c.connectedSince
      else m.connectedSince
    anyReachable := m.anyReachable || c.reachable }

namespace Reg

/-- The facts of the live slots of a pool, in the order of the loop. -/
def pool (r : Reg) (o : Orders) (e : Entry) : List Cluster :=
  (o.slots.list e.slots).filterMap fun x => (r.heap[x.2]?).map Slot.facts

def mergedLocked (r : Reg) (o : Orders) (id : String) (e : Entry) : Cluster :=
  if e.slots = ∅ then e.lastCluster
  else
    let m := (r.pool o e).foldl Merge.add ⟨none, 0, 0, false⟩
    match m.freshest with
    -- not reached: the slots of a pool are all in the heap
    | none => e.lastCluster
    | some f =>
      { f with
        id := id, lastSeen := m.lastSeen, connectedSince := m.connectedSince,
        state := connectedState m.anyReachable }

def cluster (r : Reg) (grace : Int) (o : Orders) (now : Int) (id : String) : Option Cluster :=
  (r.entries.lookup id).bind fun e =>
    if presentLocked grace e now then some (r.mergedLocked o id e) else none

def filter (r : Reg) (grace : Int) (o : Orders) (now : Int) (keep : Cluster → Bool) :
    List Cluster :=
  ((o.entries.list r.entries).filterMap fun x =>
    if presentLocked grace x.2 now then
      (some (r.mergedLocked o x.1 x.2)).filter keep
    else none).insertionSort fun a b => a.id ≤ b.id

def list (r : Reg) (grace : Int) (o : Orders) (now : Int) : List Cluster :=
  r.filter grace o now fun _ => true

def visible (r : Reg) (grace : Int) (o : Orders) (now : Int) (p : Option Principal) :
    List Cluster :=
  match p.bind fun p => p.scope with
  | none => []
  | some scope => r.filter grace o now fun c => scope.allowsCluster c.id c.labels

end Reg

/-! ## Operations -/

/-- What the environment decides at a step: the clock, the answers of the spokes, whether a
lookup of labels fails, the revoked certificates and the order of the maps. -/
structure Env where
  now : Int
  describe : Session → String → Option Facts
  generation : Session → Int
  labelsFail : Bool
  revoked : String → Bool
  orders : Orders

inductive RegOp where
  | clock
  | isClosed
  | describe (s : Session) (fingerprint : String)
  | generation (s : Session)
  | nextAnon
  | authoritativeLabels (id : String)
  | attach (key : String) (sl : Slot)
  | fingerprint (ref : Ref)
  | spokeLabels (ref : Ref)
  | apply (id key : String) (ref : Ref) (facts : Facts) (reported merged : StrMap String)
      (now : Int)
  | release (id key : String) (ref : Ref) (now : Int)
  | candidates
  | isRevoked (serial : String)
  | closeVictims (victims : List Victim) (now : Int)
  | sweep (now : Int)
  | close
  | closeSession (ref : Ref)

abbrev RegAns : RegOp → Type
  | .clock => Int
  | .isClosed => Bool
  | .describe _ _ => Option Facts
  | .generation _ => Int
  | .nextAnon => Nat
  | .authoritativeLabels _ => Option (StrMap String)
  | .attach _ _ => Except Err (Ref × Option Ref)
  | .fingerprint _ => String
  | .spokeLabels _ => StrMap String
  | .apply .. => Unit
  | .release .. => Unit
  | .candidates => List Victim
  | .isRevoked _ => Bool
  | .closeVictims _ _ => List Victim
  | .sweep _ => Nat
  | .close => List Ref
  | .closeSession _ => Unit

def regAct (cfg : Config) : (o : RegOp) → Env → Reg → RegAns o × Reg
  | .clock, e, r => (e.now, r)
  | .isClosed, _, r => (r.closed, r)
  | .describe s fp, e, r => (e.describe s fp, r)
  | .generation s, e, r => (e.generation s, r)
  | .nextAnon, _, r => (r.anonSeq + 1, { r with anonSeq := r.anonSeq + 1 })
  | .authoritativeLabels id, e, r => (if e.labelsFail then none else some (cfg.owned id), r)
  | .attach key sl, _, r => r.attach key sl
  | .fingerprint ref, _, r => (((r.heap[ref]?).map Slot.fingerprint).getD "", r)
  | .spokeLabels ref, _, r => (((r.heap[ref]?).map Slot.spokeLabels).getD ∅, r)
  | .apply id key ref facts reported merged now, _, r =>
    ((), r.apply id key ref facts reported merged now)
  | .release id key ref now, _, r => ((), r.release cfg.grace id key ref now)
  | .candidates, e, r => (r.candidates e.orders, r)
  | .isRevoked serial, e, r => (e.revoked serial, r)
  | .closeVictims vs now, _, r => Reg.closeVictims cfg.grace now vs r
  | .sweep now, e, r => r.sweep cfg.grace e.orders now
  | .close, e, r => r.close e.orders
  | .closeSession _, _, r => ((), r)

/-! ## The log -/

/-- What has happened so far. The registry does not keep it: the laws are about it. A
section dooms the slots that its call goes on to close. -/
structure Log (ι : Type) where
  released : List Ref
  doomed : List (ι × Ref)
  closing : List Ref
  leftAt : String → Option Int

/-- The slots that the call of a section closes after it. -/
def dooms : (o : RegOp) → RegAns o → List Ref
  | .attach _ _, .ok (_, some prev) => [prev]
  | .closeVictims _ _, closures => closures.map fun v => v.slot
  | .close, targets => targets
  | _, _ => []

def releases : RegOp → List Ref
  | .release _ _ ref _ => [ref]
  | _ => []

def closes : RegOp → List Ref
  | .closeSession ref => [ref]
  | _ => []

/-- The pool of a cluster has lost its last slot from `r` to `r'`. -/
def emptied (r r' : Reg) (id : String) : Bool :=
  (r.entries.lookup id).any (fun e => decide (e.slots ≠ ∅)) &&
    (r'.entries.lookup id).any fun e => decide (e.slots = ∅)

def Log.note {ι : Type} (l : Log ι) (i : ι) (o : RegOp) (a : RegAns o) (now : Int)
    (r r' : Reg) : Log ι :=
  { released := releases o ++ l.released
    doomed := ((dooms o a).map fun ref => (i, ref)) ++ l.doomed
    closing := closes o ++ l.closing
    leftAt := fun id => if emptied r r' id then some now else l.leftAt id }

structure World (ι : Type) where
  reg : Reg
  log : Log ι

def act {ι : Type} (cfg : Config) (i : ι) (o : RegOp) (e : Env) (w : World ι) :
    RegAns o × World ι :=
  let done := regAct cfg o e w.reg
  (done.1, ⟨done.2, w.log.note i o done.1 e.now w.reg done.2⟩)

/-- The registry beside one clock that does not go back. -/
def regMachine {ι : Type} (cfg : Config) : Machine RegAns ι Env (Int × World ι) :=
  Machine.clocked ⟨fun i o e w => some (act cfg i o e w)⟩ Env.now

/-! ## The calls -/

abbrev Call (α : Type) := Prog RegAns α

abbrev clock : Call Int := Prog.call RegOp.clock

def slotKey (ident : Identity) : Call String := do
  if ident.instanceID ≠ "" then return "instance:" ++ ident.instanceID
  if ident.certSerial ≠ "" then return "cert:" ++ ident.certSerial
  let n ← (Prog.call RegOp.nextAnon : Call Nat)
  return "anon:" ++ toString n

/-- The labels of the spoke under those of the operator. -/
def overlay (reported owned : StrMap String) : StrMap String :=
  if owned = ∅ then reported else owned ∪ reported

def mergeLabels (cfg : Config) (id : String) (reported : StrMap String) :
    Call (Option (StrMap String)) := do
  match cfg.authoritativeLabels with
  | none => return some reported
  | some _ =>
    let owned ← (Prog.call (RegOp.authoritativeLabels id) : Call (Option (StrMap String)))
    return owned.map fun owned => overlay reported owned

def clusterFrom (cfg : Config) (id : String) (ident : Identity) (reported : Cluster) :
    Call (Option Cluster) := do
  match ← mergeLabels cfg id reported.labels with
  | none => return none
  | some labels =>
    let now ← clock
    return some
      { reported with
        id := id, certNotAfter := ident.certNotAfter, labels := labels, lastSeen := now,
        connectedSince := now, state := connectedState reported.reachable }

/-- `OnSession`: the slot of the session. -/
def onSession (cfg : Config) (s : Option Session) : Call (Except Err Ref) := do
  match s with
  | none => return .error (.rejected .nilSession)
  | some s =>
    let ident := s.identity
    if ident.clusterID = "" then return .error (.rejected .noClusterID)
    let id := ident.clusterID
    let closed ← (Prog.call RegOp.isClosed : Call Bool)
    if closed then return .error (.rejected .closed)
    match ← (Prog.call (RegOp.describe s "") : Call (Option Facts)) with
    | none => return .error (.rejected (.describe id))
    | some facts =>
      let gen ← (Prog.call (RegOp.generation s) : Call Int)
      let key ← slotKey ident
      match ← clusterFrom cfg id ident facts.cluster with
      | none => return .error (.rejected (.labels id))
      | some cluster =>
        let sl : Slot :=
          { session := s
            generation := if gen = 0 then facts.generation else gen
            fingerprint := facts.fingerprint
            certSerial := ident.certSerial
            facts := cluster
            spokeLabels := facts.cluster.labels }
        match ← (Prog.call (RegOp.attach key sl) : Call (Except Err (Ref × Option Ref))) with
        | .error e => return .error e
        | .ok (ref, none) => return .ok ref
        | .ok (ref, some prev) =>
          let _ ← (Prog.call (RegOp.closeSession prev) : Call Unit)
          return .ok ref

def applyFacts (cfg : Config) (id key : String) (ref : Ref) (facts : Facts) : Call Unit := do
  let now ← clock
  let reported ←
    if facts.changed then pure facts.cluster.labels
    else (Prog.call (RegOp.spokeLabels ref) : Call (StrMap String))
  match ← mergeLabels cfg id reported with
  | none => return ()
  | some merged => (Prog.call (RegOp.apply id key ref facts reported merged now) : Call Unit)

/-- `pollFacts`, until it has had so many ticks. -/
def pollFacts (cfg : Config) (id key : String) (ref : Ref) (s : Session) : Nat → Call Unit
  | 0 => return ()
  | ticks + 1 => do
    let fp ← (Prog.call (RegOp.fingerprint ref) : Call String)
    match ← (Prog.call (RegOp.describe s fp) : Call (Option Facts)) with
    | none => pollFacts cfg id key ref s ticks
    | some facts =>
      applyFacts cfg id key ref facts
      pollFacts cfg id key ref s ticks

def release (id key : String) (ref : Ref) : Call Unit := do
  let now ← clock
  (Prog.call (RegOp.release id key ref now) : Call Unit)

/-- The loop of `CloseRevokedBy`, with the verdicts so far. -/
def judge (isRevoked : String → Call Bool) : List Victim → StrMap Bool → Call (List Victim)
  | [], _ => return []
  | c :: cs, verdict => do
    let revoked ←
      match verdict.lookup c.certSerial with
      | some revoked => pure revoked
      | none => isRevoked c.certSerial
    let victims ← judge isRevoked cs (verdict.insert c.certSerial revoked)
    return if revoked then c :: victims else victims

def closeSessions : List Ref → Call Unit
  | [] => return ()
  | ref :: refs => do
    let _ ← (Prog.call (RegOp.closeSession ref) : Call Unit)
    closeSessions refs

/-- `closeVictims`: the clusters of the sessions it has closed. -/
def closeVictims (victims : List Victim) : Call (List String) := do
  if victims = [] then return []
  let now ← clock
  let closures ← (Prog.call (RegOp.closeVictims victims now) : Call (List Victim))
  closeSessions (closures.map fun v => v.slot)
  return (closures.map fun v => v.id).insertionSort fun a b => a ≤ b

def closeRevokedBy (isRevoked : String → Call Bool) : Call (List String) := do
  let candidates ← (Prog.call RegOp.candidates : Call (List Victim))
  let victims ← judge isRevoked candidates ∅
  closeVictims victims

def closeRevoked (serials : List String) : Call (List String) := do
  if serials = [] then return []
  closeRevokedBy fun serial => return decide (serial ∈ serials)

/-- One tick of `Run`. -/
def sweep : Call Unit := do
  let now ← clock
  let _ ← (Prog.call (RegOp.sweep now) : Call Nat)
  return ()

def close : Call Unit := do
  let targets ← (Prog.call RegOp.close : Call (List Ref))
  closeSessions targets

/-! ## The system -/

/-- A call of the registry. A release and a poll may come for any slot, at any time and
more than once. -/
inductive Request where
  | onSession (s : Option Session)
  | pollFacts (key : String) (ref : Ref) (s : Session) (ticks : Nat)
  | release (id key : String) (ref : Ref)
  | closeRevokedBy
  | closeRevoked (serials : List String)
  | sweep
  | close

inductive Reply where
  | admitted (r : Except Err Ref)
  | closed (ids : List String)
  | done

def Request.program (cfg : Config) : Request → Call Reply
  | .onSession s => do return .admitted (← registry.onSession cfg s)
  | .pollFacts key ref s ticks => do
    registry.pollFacts cfg s.identity.clusterID key ref s ticks
    return .done
  | .release id key ref => do
    registry.release id key ref
    return .done
  | .closeRevokedBy => do
    return .closed (← registry.closeRevokedBy fun serial => Prog.call (RegOp.isRevoked serial))
  | .closeRevoked serials => do return .closed (← registry.closeRevoked serials)
  | .sweep => do
    registry.sweep
    return .done
  | .close => do
    registry.close
    return .done

/-- A registry that has just been made. -/
def empty (ι : Type) : World ι := ⟨⟨[], ∅, false, 0⟩, ⟨[], [], [], fun _ => none⟩⟩

/-- The calls of a registry that was made at the time `t`. -/
def system {ι : Type} (cfg : Config) (t : Int) (calls : ι → Request) :
    Conf RegAns ι (Int × World ι) Reply :=
  { shared := (t, empty ι), thread := fun i => (calls i).program cfg }

end prom_fleet.registry
