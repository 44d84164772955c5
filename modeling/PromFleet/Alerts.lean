-- The alerts of a cluster, and the list of the firing alerts of the fleet: each cluster's
-- own list is cut before the lists are merged, and the merged list is cut again.
import Mathlib.Data.Prod.Lex
import PromFleet.Fanout
import PromFleet.Sanitize

namespace prom_fleet.mcptools

open fleet render map_range

/-! ## One alert -/

inductive AlertState where
  | firing
  | pending
  | inactive
  deriving DecidableEq

def AlertState.text : AlertState → String
  | .firing => "firing"
  | .pending => "pending"
  | .inactive => "inactive"

/-- `upstreamAlert`: an alert as a cluster reports it. -/
structure UpstreamAlert where
  labels : StrMap String
  annotations : StrMap String
  state : String
  activeAt : String
  value : String

structure AlertInfo where
  alertname : String
  state : AlertState
  severity : String
  activeSince : String
  value : String
  labels : StrMap String
  annotations : StrMap String
  runbook : Option URLRef

structure FleetAlert where
  cluster : String
  alert : AlertInfo

def alertRank (a : AlertInfo) : Nat :=
  let base := if a.state = .firing then 0 else 10
  if a.severity = "critical" then base
  else if a.severity = "warning" then base + 1
  else base + 2

/-- The alerts of a cluster are in the order of their rank, then of their name. -/
def AlertInfo.key (a : AlertInfo) : Lex (Nat × String) := toLex (alertRank a, a.alertname)

/-- The alerts of the fleet are in the order of their rank, then of the cluster, then of
their name. -/
def FleetAlert.key (a : FleetAlert) : Lex (Nat × Lex (String × String)) :=
  toLex (alertRank a.alert, toLex (a.cluster, a.alert.alertname))

def AlertInfo.before (a b : AlertInfo) : Prop := a.key ≤ b.key

instance : DecidableRel AlertInfo.before := fun a b => inferInstanceAs (Decidable (a.key ≤ b.key))

def FleetAlert.before (a b : FleetAlert) : Prop := a.key ≤ b.key

instance : DecidableRel FleetAlert.before := fun a b => inferInstanceAs (Decidable (a.key ≤ b.key))

instance : Std.Total FleetAlert.before := ⟨fun a b => le_total a.key b.key⟩

instance : IsTrans FleetAlert FleetAlert.before := ⟨fun _ _ _ => le_trans⟩

/-- What the alerts need of the library: the order of the loops over labels, the host of a
URL, the table, the estimates of the tokens, and a sort that may mix equal alerts. -/
structure AlertLib where
  order : Range String String
  hostname : String → Option String
  table : List AlertInfo → String
  tokens : List AlertInfo → Int
  fleetTokens : List FleetAlert → Int
  sortFleet : List FleetAlert → List FleetAlert
  sortFleet_perm : ∀ l, (sortFleet l).Perm l
  sortFleet_sorted : ∀ l, (sortFleet l).Pairwise FleetAlert.before

section Convert

variable (T : Texts) (L : AlertLib)

def normalizeAlertState (s : String) : AlertState :=
  let lower := T.toLower (trimSpace s)
  if lower = "firing" then .firing
  else if lower = "pending" then .pending
  else .inactive

/-- `NewURLRef`: the bounds are `MaxURLRunes` and the length of a host name. -/
def newURLRef (raw : String) : Option URLRef :=
  let clean := T.clipRunes raw 512
  if clean = "" then none
  else some ⟨clean, ((L.hostname clean).map fun host => T.clipRunes host 253).getD "", false⟩

/-- The annotations that an alert keeps: `Annotation` cuts at `MaxAnnotationRunes`. -/
def annotationsOf (given : StrMap String) : StrMap String :=
  collect (fun k v =>
    if validLabelName k = false ∨ k = "runbook_url" ∨ T.clipRunes v 500 = "" then none
    else some (T.clipRunes v 500)) (L.order.list given)

def convertAlert (a : UpstreamAlert) (withAnnotations : Bool) : AlertInfo :=
  let labels := render.labels L.order a.labels
  { alertname := labelOf labels "alertname"
    state := normalizeAlertState T a.state
    severity := labelOf labels "severity"
    activeSince := T.clipRunes a.activeAt 40
    value := T.clipRunes a.value 64
    labels := (labels.erase "alertname").erase "severity"
    annotations := if withAnnotations then annotationsOf T L a.annotations else ∅
    runbook :=
      if withAnnotations then (a.annotations.lookup "runbook_url").bind (newURLRef T L)
      else none }

end Convert

/-! ## The alerts of a cluster -/

structure AlertsIn where
  cluster : String
  state : String
  alertname : String
  severity : String
  labelSelector : StrMap String
  includeAnnotations : Bool
  limit : Int
  format : String

structure AlertSummary where
  firing : Nat
  pending : Nat
  bySeverity : StrMap Nat

structure AlertsOut where
  summary : AlertSummary
  alerts : List AlertInfo
  total : Nat
  truncated : Option Truncation
  table : String

/-- What a cluster answers: `fetch` fails, the data do not decode, or there is a list. -/
abbrev AlertsAnswer := Except ToolError (Except String (List UpstreamAlert))

/-- The counts of an alert that matches. -/
def AlertSummary.add (s : AlertSummary) (a : AlertInfo) : AlertSummary :=
  let sev := if a.severity = "" then "unset" else a.severity
  { firing := if a.state = .firing then s.firing + 1 else s.firing
    pending := if a.state = .pending then s.pending + 1 else s.pending
    bySeverity := s.bySeverity.insert sev ((s.bySeverity.lookup sev).getD 0 + 1) }

namespace Tools

variable (t : Tools) (L : AlertLib)

/-- The state that is asked for. -/
def alertStateArg (cluster state : String) : Except Refusal String :=
  let state := if state = "" then "firing" else state
  if state ∈ ["all", "firing", "pending"] then .ok state
  else
    .error (.error { newError t.texts .invalidArgument
        ("state " ++ t.texts.quote (t.texts.clipRunes state 32) ++
          " is not one of all, firing, pending") false with
      input := [("cluster", .text cluster), ("state", .text (t.texts.clipRunes state 32))] })

/-- `fetch` and `decodeData`. -/
def fetchAlerts (cluster : String) : AlertsAnswer → Except Refusal (List UpstreamAlert)
  | .error e => .error (.error e)
  | .ok (.error text) =>
    .error (.error (newError t.texts .malformedUpstream ("cluster " ++ t.texts.quote cluster ++
      " returned a payload this hub could not read: " ++ text) false))
  | .ok (.ok raw) => .ok raw

/-- A round of the loop of `alerts`: the alert, if it matches. -/
def matchAlert (arg : AlertsIn) (state : String) (a : UpstreamAlert) : Option AlertInfo :=
  let ai := convertAlert t.texts L a arg.includeAnnotations
  if arg.alertname ≠ "" ∧ ai.alertname ≠ arg.alertname then none
  else if arg.severity ≠ "" ∧ ai.severity ≠ arg.severity then none
  else if matchesSelector a.labels arg.labelSelector = false then none
  else if state ≠ "all" ∧ ai.state.text ≠ state then none
  else some ai

/-- The alerts that match, in the order of the answer. -/
def matched (arg : AlertsIn) (state : String) (raw : List UpstreamAlert) : List AlertInfo :=
  raw.filterMap (t.matchAlert L arg state)

/-- The end of `alerts`: the alerts that match are sorted and cut. -/
def listAlerts (limit : Int) (format : Format) (matched : List AlertInfo) : AlertsOut :=
  let (fitted, trunc) := cutList L.tokens t.tokenCeiling
    (matched.insertionSort AlertInfo.before) (clampInt limit 50 1 300)
    ("Filter with severity, alertname or labelSelector rather than raising limit; " ++
      "the summary already counts every matching alert.")
    ("The hub caps a result at about " ++ toString t.tokenCeiling ++
      " estimated tokens regardless of limit. " ++
      "Set includeAnnotations false, or filter by severity.")
  { summary := matched.foldl AlertSummary.add ⟨0, 0, ∅⟩
    alerts := if format = .table then [] else fitted
    total := matched.length
    truncated := trunc.map fun tr => { tr with selection := "firing_first_then_severity" }
    table := if format = .table then L.table fitted else "" }

/-- `alerts`, with what `fetch` gives for the cluster. -/
def alerts (p : Principal) (arg : AlertsIn) (answer : AlertsAnswer) : Except Refusal AlertsOut := do
  let c ← t.clusterArg p arg.cluster
  let format ← t.parseFormat arg.format false
  let state ← t.alertStateArg c.id arg.state
  let raw ← t.fetchAlerts c.id answer
  return t.listAlerts L arg.limit format (t.matched L arg state raw)

end Tools

/-! ## The firing alerts of the fleet -/

def maxFleetAlerts : Int := 200

def maxClustersCeiling : Nat := 100

structure FleetAlertsOut where
  alerts : List FleetAlert
  total : Nat
  coverage : Coverage
  preamble : String
  failed : List ClusterFailure
  truncated : Option Truncation

/-- How the read of a cluster ended, by its name. -/
abbrev AlertsEntry := String × Except Refusal AlertsOut

namespace AlertsEntry

variable (e : AlertsEntry)

/-- A panic in one of the goroutines ends the program. -/
def crashed : Bool :=
  match e.2 with
  | .error .crash => true
  | _ => false

def answered : Bool :=
  match e.2 with
  | .ok _ => true
  | _ => false

def failure? (T : Texts) (e : AlertsEntry) : Option ClusterFailure :=
  match e.2 with
  | .error (.error err) => some ⟨e.1, err.code, T.clipRunes err.message 200, false⟩
  | _ => none

def found : List FleetAlert :=
  match e.2 with
  | .ok res => res.alerts.map fun a => ⟨e.1, a⟩
  | _ => []

end AlertsEntry

namespace Tools

variable (t : Tools) (L : AlertLib) (p : Principal)

/-- The visible clusters in the order of the read. -/
def fleetClusters : List Cluster := (t.fleet.visible p).insertionSort fun a b => a.id ≤ b.id

/-- What `readFiringAlerts` asks a cluster for. -/
def firingArg (cluster : String) : AlertsIn where
  cluster := cluster
  state := "firing"
  alertname := ""
  severity := ""
  labelSelector := ∅
  includeAnnotations := true
  limit := maxFleetAlerts
  format := ""

def notRead (c : Cluster) : ClusterFailure :=
  { cluster := c.id
    code := .invalidArgument
    message := "not read: this resource reads at most " ++ toString maxClustersCeiling ++
      " clusters"
    retryable := false }

variable (world : Cluster → Fleet × AlertsAnswer)

/-- The entry of a cluster. The goroutine of the cluster has a fleet of its own, since the
registry may change before it looks the cluster up, and an answer of its own. -/
def firingEntry (c : Cluster) : AlertsEntry :=
  (c.id, Tools.alerts { t with fleet := (world c).1 } L p (firingArg c.id) (world c).2)

/-- `readFiringAlerts` after the entries are there. -/
def mergeFiringAlerts (requested : Nat) (skipped : List ClusterFailure)
    (entries : List AlertsEntry) : FleetAlertsOut :=
  let failed := skipped ++ entries.filterMap (AlertsEntry.failure? t.texts)
  let ok := entries.countP AlertsEntry.answered
  let sorted := L.sortFleet (entries.flatMap AlertsEntry.found)
  let cov : Coverage := ⟨requested, ok, failed.length, 0, decide (ok = requested)⟩
  let (fitted, trunc) := cutList L.fleetTokens t.tokenCeiling sorted maxFleetAlerts
    "Use the alerts tool on one cluster, filtered by severity, for the full picture."
    ("The hub caps a result at about " ++ toString t.tokenCeiling ++ " estimated tokens. " ++
      "Use the alerts tool on one cluster, filtered by severity, for the full picture.")
  { alerts := fitted
    total := sorted.length
    coverage := cov
    preamble :=
      if cov.complete then "Complete result: all " ++ toString cov.ok ++ " clusters answered."
      else "Partial result: " ++ toString cov.ok ++ " of " ++ toString cov.requested ++
        " clusters. " ++ toString cov.failed ++ " could not be read and are named in failed; " ++
        "this is not the whole fleet's alert state."
    failed := failed.insertionSort fun a b => a.cluster ≤ b.cluster
    truncated := trunc }

/-- `readFiringAlerts`, for a credential that may read the resource. Each goroutine writes
the entry of its own cluster, and the merge waits for all of them. -/
def readFiringAlerts : Except Refusal FleetAlertsOut :=
  let clusters := t.fleetClusters p
  let entries := (clusters.take maxClustersCeiling).map (t.firingEntry L p world)
  if entries.any AlertsEntry.crashed then .error .crash
  else .ok (t.mergeFiringAlerts L clusters.length
    ((clusters.drop maxClustersCeiling).map notRead) entries)

end Tools

end prom_fleet.mcptools
