-- The coverage table of one endpoint of a spoke: how many tunnels it holds to each replica of
-- the hub, and the signals that `dialOnce` publishes from it. Each critical section of the
-- table and each write of a signal is one operation.
import PromFleet.Publish
import PromFleet.Identity

namespace prom_fleet.coverage

open interleave

/-! ## The table -/

def maxAdvertisedReplicas : Int := 16

structure Coverage where
  discover : Bool
  live : StrMap Nat
  want : Int

def newCoverage (discover : Bool) : Coverage :=
  { discover := discover, live := ∅, want := if discover then 0 else 1 }

namespace Coverage

variable (c : Coverage)

variable (serverID : String)

/-- `c.live[serverID]`. -/
def count : Nat := (c.live.lookup serverID).getD 0

/-- What `join` takes from the replica count of a hello. -/
def learn (replicas : Int) : Coverage :=
  if c.discover then
    let replicas := if maxAdvertisedReplicas < replicas then maxAdvertisedReplicas else replicas
    if 0 < replicas then { c with want := replicas } else c
  else c

/-- `coverage.join`: whether the tunnel is a duplicate. -/
def join (replicas : Int) : Bool × Coverage :=
  let c := c.learn replicas
  (decide (0 < c.count serverID), { c with live := c.live.insert serverID (c.count serverID + 1) })

def leave : Coverage :=
  if c.count serverID ≤ 1 then { c with live := c.live.erase serverID }
  else { c with live := c.live.insert serverID (c.count serverID - 1) }

/-- `coverage.state`: how many replicas are covered, and how many are wanted. -/
def state : Nat × Int := (c.live.keys.card, c.want)

end Coverage

/-! ## The operations of a dial -/

/-- `wstun.HubInfo`. The hub chooses both. -/
structure HubInfo where
  serverID : String
  replicas : Int
  deriving DecidableEq

/-- The last values of the endpoint's gauges and of its health component, once they are set. -/
structure Signals where
  hubReplicas : Option Int
  tunnelsCovered : Option Nat
  tunnelUp : Option Nat
  health : Option (Bool × String)
  deriving DecidableEq

structure World where
  cov : Coverage
  signals : Signals

/-- What the environment decides: whether the spoke has an identity, how the dial ends or
what the hub says in its hello, and why the connection ends. -/
structure Env where
  identity : Bool
  dial : Except String HubInfo
  reason : String

inductive Op where
  | currentIdentity
  | dial
  | setHubReplicas (n : Int)
  | join (serverID : String) (replicas : Int)
  | state
  | setTunnelsCovered (n : Nat)
  | setTunnelUp (n : Nat)
  | setHealth (ok : Bool) (message : String)
  | serve
  | leave (serverID : String)

abbrev Ans : Op → Type
  | .currentIdentity => Bool
  | .dial => Except String HubInfo
  | .setHubReplicas _ => Unit
  | .join _ _ => Bool
  | .state => Nat × Int
  | .setTunnelsCovered _ => Unit
  | .setTunnelUp _ => Unit
  | .setHealth _ _ => Unit
  | .serve => String
  | .leave _ => Unit

def act : (o : Op) → Env → World → Ans o × World
  | .currentIdentity, e, w => (e.identity, w)
  | .dial, e, w => (e.dial, w)
  | .setHubReplicas n, _, w => ((), { w with signals.hubReplicas := some n })
  | .join id n, _, w => ((w.cov.join id n).1, { w with cov := (w.cov.join id n).2 })
  | .state, _, w => (w.cov.state, w)
  | .setTunnelsCovered n, _, w => ((), { w with signals.tunnelsCovered := some n })
  | .setTunnelUp n, _, w => ((), { w with signals.tunnelUp := some n })
  | .setHealth ok message, _, w => ((), { w with signals.health := some (ok, message) })
  | .serve, e, w => (e.reason, w)
  | .leave id, _, w => ((), { w with cov := w.cov.leave id })

/-- The endpoint with the record of what its dials have done. -/
def machine (ι : Type) : Machine Ans ι Env (World × List (ι × Event Ans Env World)) :=
  Machine.recorded ⟨fun _ o e w => some (act o e w)⟩

/-! ## A dial -/

abbrev Call (α : Type) := Prog Ans α

/-- The value of `TunnelUp`. -/
def upGauge (covered : Nat) : Nat := if 0 < covered then 1 else 0

variable (endpoint : String)

/-- The health of an endpoint: whether it is fine, and what to say if not. -/
def tunnelHealth (covered : Nat) (want : Int) : Bool × String :=
  if covered = 0 then (false, "no tunnel to " ++ endpoint)
  else if 0 < want ∧ covered < want then
    (false, "covering " ++ toString covered ++ " of " ++ toString want ++ " hub replicas via " ++
      endpoint)
  else (true, "")

def publishTunnelSignals : Call Unit := do
  let (covered, want) ← (Prog.call Op.state : Call (Nat × Int))
  let _ ← (Prog.call (Op.setTunnelUp (upGauge covered)) : Call Unit)
  let (ok, message) := tunnelHealth endpoint covered want
  (Prog.call (Op.setHealth ok message) : Call Unit)

/-- What follows a change of the table. -/
def publishCoverage : Call Unit := do
  let (covered, _) ← (Prog.call Op.state : Call (Nat × Int))
  let _ ← (Prog.call (Op.setTunnelsCovered covered) : Call Unit)
  publishTunnelSignals endpoint

/-- The callback `OnConnected` of `dialOnce`: whether the tunnel is redundant. -/
def onConnected (hub : HubInfo) : Call Bool := do
  let _ ← (Prog.call (Op.setHubReplicas hub.replicas) : Call Unit)
  let duplicate ← (Prog.call (Op.join hub.serverID hub.replicas) : Call Bool)
  publishCoverage endpoint
  return duplicate

/-- The deferred function of `dialOnce`, with the captured `joined`. -/
def deferredLeave (endpoint joined : String) : Call Unit := do
  if joined ≠ "" then
    let _ ← (Prog.call (Op.leave joined) : Call Unit)
    publishCoverage endpoint

def reasonRedundantTunnel : String := "redundant-replica"

/-- `dialOnce`: why the connection has ended. A dial that fails has not joined. -/
def dialOnce : Call String := do
  let id ← (Prog.call Op.currentIdentity : Call Bool)
  if !id then return "no-identity"
  match ← (Prog.call Op.dial : Call (Except String HubInfo)) with
  | .error reason => return reason
  | .ok hub =>
    let redundant ← onConnected endpoint hub
    let reason ← (Prog.call Op.serve : Call String)
    deferredLeave endpoint hub.serverID
    return if redundant then reasonRedundantTunnel else reason

/-! ## The system -/

/-- An endpoint that nobody has dialed yet, and any number of dials of it. -/
def start (ι : Type) (discover : Bool) (endpoint : String) :
    Conf Ans ι (World × List (ι × Event Ans Env World)) String :=
  { shared := (⟨newCoverage discover, ⟨none, none, none, none⟩⟩, [])
    thread := fun _ => dialOnce endpoint }

/-- Where a dial stands after a change of the table. It reads the table twice: once for
`TunnelsCovered`, and once for the other two signals. -/
inductive Stage where
  | clear
  | altered
  | seen (covered : Nat) (want : Int)
  | counted
  | derived (covered : Nat) (want : Int)
  | raised (covered : Nat) (want : Int)
  deriving DecidableEq

/-- What the operations of a dial have come to: the replica that it has joined and not left,
and what it still has to publish. -/
structure Phase where
  joined : Option String
  stage : Stage
  deriving DecidableEq

def Stage.read (covered : Nat) (want : Int) : Stage → Stage
  | .altered => .seen covered want
  | .counted => .derived covered want
  | _ => .clear

def Stage.count : Stage → Stage
  | .seen _ _ => .counted
  | _ => .clear

def Stage.raise : Stage → Stage
  | .derived covered want => .raised covered want
  | _ => .clear

def Phase.next (m : Phase) : (o : Op) → Ans o → Phase
  | .join id _, _ => ⟨some id, .altered⟩
  | .leave _, _ => ⟨none, .altered⟩
  | .state, r => ⟨m.joined, m.stage.read r.1 r.2⟩
  | .setTunnelsCovered _, _ => ⟨m.joined, m.stage.count⟩
  | .setTunnelUp _, _ => ⟨m.joined, m.stage.raise⟩
  | .setHealth _ _, _ => ⟨m.joined, .clear⟩
  | _, _ => m

/-- What the operations of dial `i` have come to. -/
def phase {ι : Type} [DecidableEq ι] (i : ι) (log : List (ι × Event Ans Env World)) : Phase :=
  outcome Phase.next ⟨none, .clear⟩ (own i log)

/-- Dial `i` has joined the table as a tunnel to this replica, and its deferred leave has not
run. -/
def Connected {ι : Type} [DecidableEq ι] (i : ι) (id : String)
    (log : List (ι × Event Ans Env World)) : Prop := (phase i log).joined = some id

end prom_fleet.coverage
