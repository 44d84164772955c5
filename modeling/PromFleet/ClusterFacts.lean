-- The facts that a spoke publishes about its cluster: the fingerprint that stands for
-- them, the sampled list of metric prefixes, and the form in which they cross the tunnel.
import PromFleet.Registry
import Mathlib.Data.Countable.Basic

namespace prom_fleet.clusterfacts

open fleet registry

/-! ## The facts -/

structure KubernetesInfo where
  available : Bool
  unavailableReason : String
  version : String
  clusterUID : String
  nodeCount : Int
  deriving DecidableEq

structure PrometheusInfo where
  reachable : Bool
  unreachableReason : String
  flavor : String
  version : String
  retention : String
  scrapeInterval : String
  lookbackDelta : String
  externalLabels : StrMap String
  activeSeries : Int
  metricNames : Int
  jobs : List String
  namespaces : List String
  metricPrefixes : List String
  ruleGroups : Int
  alertingRules : Int
  firingAlerts : Int
  hasAlertmanager : Bool
  deriving DecidableEq

/-- `fleet.Cluster`, with all that a spoke reports. -/
structure Cluster where
  id : String
  displayName : String
  description : String
  labels : StrMap String
  state : ClusterState
  lastSeen : Int
  connectedSince : Int
  agentVersion : String
  protocolVersion : String
  certNotAfter : Int
  kubernetes : KubernetesInfo
  prometheus : PrometheusInfo
  deriving DecidableEq

def KubernetesInfo.zero : KubernetesInfo := ⟨false, "", "", "", 0⟩

def PrometheusInfo.zero : PrometheusInfo :=
  ⟨false, "", "", "", "", "", "", ∅, 0, 0, [], [], [], 0, 0, 0, false⟩

/-- The zero value of `fleet.Cluster`. -/
def Cluster.zero : Cluster :=
  ⟨"", "", "", ∅, .unknown "", 0, 0, "", "", 0, .zero, .zero⟩

/-- The part of a cluster that the registry decides by. -/
def Cluster.brief (c : Cluster) : fleet.Cluster :=
  { id := c.id
    labels := c.labels
    state := c.state
    lastSeen := c.lastSeen
    connectedSince := c.connectedSince
    certNotAfter := c.certNotAfter
    reachable := c.prometheus.reachable }

/-- What only the spoke can say about its cluster. The identity, the state and the times
are the hub's, and the labels are merged with those of the operator. -/
structure Owned where
  displayName : String
  description : String
  agentVersion : String
  protocolVersion : String
  kubernetes : KubernetesInfo
  prometheus : PrometheusInfo
  deriving DecidableEq

def Cluster.owned (c : Cluster) : Owned :=
  ⟨c.displayName, c.description, c.agentVersion, c.protocolVersion, c.kubernetes, c.prometheus⟩

/-! ## The fingerprint -/

structure CanonicalFacts where
  id : String
  displayName : String
  description : String
  labels : StrMap String
  agentVersion : String
  protocolVersion : String
  kubernetesAvailable : Bool
  kubernetesReason : String
  kubernetesVersion : String
  kubernetesClusterUID : String
  kubernetesNodeCount : Int
  promReachable : Bool
  promUnreachable : String
  promFlavor : String
  promVersion : String
  promRetention : String
  promScrapeInterval : String
  promLookbackDelta : String
  promExternalLabels : StrMap String
  promActiveSeries : Int
  promMetricNames : Int
  promJobs : List String
  promNamespaces : List String
  promMetricPrefixes : List String
  promRuleGroups : Int
  promAlertingRules : Int
  promFiringAlerts : Int
  promHasAlertmanager : Bool
  deriving DecidableEq

def sortedCopy (texts : List String) : List String := texts.insertionSort (· ≤ ·)

/-- The literal that `Fingerprint` encodes. -/
def canonicalFacts (c : Cluster) : CanonicalFacts :=
  { id := c.id
    displayName := c.displayName
    description := c.description
    labels := c.labels
    agentVersion := c.agentVersion
    protocolVersion := c.protocolVersion
    kubernetesAvailable := c.kubernetes.available
    kubernetesReason := c.kubernetes.unavailableReason
    kubernetesVersion := c.kubernetes.version
    kubernetesClusterUID := c.kubernetes.clusterUID
    kubernetesNodeCount := c.kubernetes.nodeCount
    promReachable := c.prometheus.reachable
    promUnreachable := c.prometheus.unreachableReason
    promFlavor := c.prometheus.flavor
    promVersion := c.prometheus.version
    promRetention := c.prometheus.retention
    promScrapeInterval := c.prometheus.scrapeInterval
    promLookbackDelta := c.prometheus.lookbackDelta
    promExternalLabels := c.prometheus.externalLabels
    promActiveSeries := c.prometheus.activeSeries
    promMetricNames := c.prometheus.metricNames
    promJobs := sortedCopy c.prometheus.jobs
    promNamespaces := sortedCopy c.prometheus.namespaces
    promMetricPrefixes := sortedCopy c.prometheus.metricPrefixes
    promRuleGroups := c.prometheus.ruleGroups
    promAlertingRules := c.prometheus.alertingRules
    promFiringAlerts := c.prometheus.firingAlerts
    promHasAlertmanager := c.prometheus.hasAlertmanager }

/-- `Fingerprint`. The digest is the hexadecimal SHA-256 of the JSON text. -/
def fingerprint (digest : CanonicalFacts → String) (c : Cluster) : String :=
  digest (canonicalFacts c)

/-- The facts without their lists. -/
def Owned.unlisted (o : Owned) : Owned :=
  { o with prometheus := { o.prometheus with jobs := [], namespaces := [], metricPrefixes := [] } }

/-- The same facts, up to the order of the lists. -/
structure Owned.Agrees (o p : Owned) : Prop where
  unlisted : o.unlisted = p.unlisted
  jobs : o.prometheus.jobs.Perm p.prometheus.jobs
  namespaces : o.prometheus.namespaces.Perm p.prometheus.namespaces
  metricPrefixes : o.prometheus.metricPrefixes.Perm p.prometheus.metricPrefixes

theorem Owned.Agrees.refl (o : Owned) : o.Agrees o := ⟨rfl, .rfl, .rfl, .rfl⟩

theorem Owned.Agrees.trans {o p q : Owned} (h : o.Agrees p) (h' : p.Agrees q) : o.Agrees q :=
  ⟨h.unlisted.trans h'.unlisted, h.jobs.trans h'.jobs, h.namespaces.trans h'.namespaces,
    h.metricPrefixes.trans h'.metricPrefixes⟩

theorem perm_of_sortedCopy {a b : List String} (h : sortedCopy a = sortedCopy b) : a.Perm b := by
  have hb : (sortedCopy b).Perm b := List.perm_insertionSort _ b
  rw [← h] at hb
  exact (List.perm_insertionSort _ a).symm.trans hb

variable {c d : Cluster}

/-- Snapshots with one fingerprint say the same, up to the order of their lists. -/
theorem agrees_of_fingerprint {digest : CanonicalFacts → String} (hinj : Function.Injective digest)
    (h : fingerprint digest c = fingerprint digest d) :
    c.owned.Agrees d.owned ∧ c.labels = d.labels := by
  have h := CanonicalFacts.mk.inj (hinj h)
  refine ⟨⟨?_, perm_of_sortedCopy ?_, perm_of_sortedCopy ?_, perm_of_sortedCopy ?_⟩, ?_⟩
  · simp only [Owned.unlisted, Cluster.owned, Owned.mk.injEq, PrometheusInfo.mk.injEq]
    obtain ⟨_, _, _, _, _, _, _, _, _, _, ⟨_, _, _, _, _⟩, _⟩ := c
    obtain ⟨_, _, _, _, _, _, _, _, _, _, ⟨_, _, _, _, _⟩, _⟩ := d
    simp_all only [and_self]
  all_goals simp_all only [Cluster.owned]

/-! ## The sampled prefixes -/

def metricPrefix (name : String) : String :=
  let trimmed := name.toList.dropWhile (· = '_')
  let first := trimmed.takeWhile (· ≠ '_')
  let second := ((trimmed.dropWhile (· ≠ '_')).drop 1).takeWhile (· ≠ '_')
  if second = [] then String.ofList first else String.ofList (first ++ '_' :: second)

/-- `topPrefixes`: the most populous prefixes first, ties by the alphabet. -/
def topPrefixes (names : List String) (topN : Nat) : List String :=
  let found := (names.map metricPrefix).filter (· ≠ "")
  let ranked := found.dedup.insertionSort fun p q =>
    found.count q < found.count p ∨ (found.count p = found.count q ∧ p ≤ q)
  if 0 < topN ∧ topN < ranked.length then ranked.take topN else ranked

/-! ## Over the tunnel -/

structure Facts where
  fingerprint : String
  changed : Bool
  cluster : Cluster
  generation : Int
  deriving DecidableEq

def Facts.brief (f : Facts) : registry.Facts :=
  ⟨f.fingerprint, f.changed, f.cluster.brief, f.generation⟩

/-- `fleetv1.ClusterFacts`. -/
structure ClusterFactsMsg where
  clusterId : String
  displayName : String
  labels : StrMap String
  description : String
  agentVersion : String
  protocolVersion : String
  startedAtUnixNano : Int
  kubernetes : KubernetesInfo
  prometheus : PrometheusInfo
  deriving DecidableEq

structure DescribeResponse where
  fingerprint : String
  unchanged : Bool
  facts : Option ClusterFactsMsg
  deriving DecidableEq

def factsToProto (f : Facts) (generation : Int) : DescribeResponse :=
  if !f.changed then { fingerprint := f.fingerprint, unchanged := !f.changed, facts := none }
  else
    { fingerprint := f.fingerprint
      unchanged := !f.changed
      facts := some
        { clusterId := f.cluster.id
          displayName := f.cluster.displayName
          labels := f.cluster.labels
          description := f.cluster.description
          agentVersion := f.cluster.agentVersion
          protocolVersion := f.cluster.protocolVersion
          startedAtUnixNano := generation
          kubernetes := f.cluster.kubernetes
          prometheus := f.cluster.prometheus } }

def factsFromProto (m : DescribeResponse) : Facts :=
  match m.facts with
  | none =>
    { fingerprint := m.fingerprint, changed := false, cluster := .zero, generation := 0 }
  | some pf =>
    { fingerprint := m.fingerprint
      changed := !m.unchanged
      generation := pf.startedAtUnixNano
      cluster :=
        { Cluster.zero with
          id := pf.clusterId
          displayName := pf.displayName
          description := pf.description
          labels := pf.labels
          agentVersion := pf.agentVersion
          protocolVersion := pf.protocolVersion
          kubernetes := pf.kubernetes
          prometheus := pf.prometheus } }

section Roundtrip

variable (f : Facts) (generation : Int)

@[simp] theorem factsToProto_unchanged : (factsToProto f generation).unchanged = !f.changed := by
  unfold factsToProto
  split <;> rfl

@[simp] theorem roundtrip_fingerprint :
    (factsFromProto (factsToProto f generation)).fingerprint = f.fingerprint := by
  unfold factsToProto
  split <;> rfl

@[simp] theorem roundtrip_changed :
    (factsFromProto (factsToProto f generation)).changed = f.changed := by
  unfold factsToProto
  split <;> simp_all [factsFromProto]

/-- A changed reply brings all that the spoke says, and its labels, over the tunnel. -/
theorem roundtrip_owned (h : f.changed = true) :
    (factsFromProto (factsToProto f generation)).cluster.owned = f.cluster.owned ∧
      (factsFromProto (factsToProto f generation)).cluster.labels = f.cluster.labels := by
  simp [factsToProto, factsFromProto, h, Cluster.owned]

end Roundtrip

/-! ## The slot of a session -/

/-- `slot`: the facts that the hub keeps for a session. -/
structure Slot where
  fingerprint : String
  facts : Cluster
  spokeLabels : StrMap String
  deriving DecidableEq

variable (sl : Slot)

/-- The slot as the registry has it, with the rest of its fields. -/
def Slot.brief (rest : registry.Slot) : registry.Slot :=
  { rest with
    fingerprint := sl.fingerprint, facts := sl.facts.brief, spokeLabels := sl.spokeLabels }

/-- The slot after the locked section of `applyFacts`. -/
def Slot.refresh (id : String) (facts : Facts) (reported merged : StrMap String)
    (now : Int) : Slot :=
  if facts.changed then
    { facts :=
        { facts.cluster with
          id := id, labels := merged, certNotAfter := sl.facts.certNotAfter,
          connectedSince := sl.facts.connectedSince, lastSeen := now,
          state := connectedState facts.cluster.prometheus.reachable }
      spokeLabels := reported
      fingerprint := facts.fingerprint }
  else { sl with facts := { sl.facts with lastSeen := now, labels := merged } }

/-- The slot that `OnSession` builds from the first reply. -/
def Slot.admitted (id : String) (certNotAfter : Int) (facts : Facts) (merged : StrMap String)
    (now : Int) : Slot :=
  { fingerprint := facts.fingerprint
    facts :=
      { facts.cluster with
        id := id, certNotAfter := certNotAfter, labels := merged, lastSeen := now,
        connectedSince := now,
        state := connectedState facts.cluster.prometheus.reachable }
    spokeLabels := facts.cluster.labels }

/-- The registry's own model of a slot keeps a part of these facts, and refreshes it the
same way. -/
theorem brief_refresh (rest : registry.Slot) (id : String) (facts : Facts)
    (reported merged : StrMap String) (now : Int) :
    (sl.refresh id facts reported merged now).brief rest =
      (sl.brief rest).refresh id facts.brief reported merged now := by
  unfold Slot.refresh registry.Slot.refresh
  cases h : facts.changed with
  | false | true => simp [Slot.brief, Facts.brief, Cluster.brief, h]

/-- The slot holds a snapshot: all that the spoke owns, up to the order of the lists, and the
labels it reported. -/
def Slot.Holds (c : Cluster) : Prop :=
  sl.facts.owned.Agrees c.owned ∧ sl.spokeLabels = c.labels

variable {facts : Facts}

theorem refresh_changed_owned (h : facts.changed = true) (sl : Slot) (id : String)
    (reported merged : StrMap String) (now : Int) :
    (sl.refresh id facts reported merged now).facts.owned = facts.cluster.owned := by
  simp [Slot.refresh, h, Cluster.owned]

theorem refresh_unchanged (h : facts.changed = false) (sl : Slot) (id : String)
    (reported merged : StrMap String) (now : Int) : sl.refresh id facts reported merged now =
      { sl with facts := { sl.facts with lastSeen := now, labels := merged } } := by
  simp [Slot.refresh, h]

end prom_fleet.clusterfacts
