-- The law of the firing alerts: what the resource says of its own cut is always right, and
-- its total counts every firing alert as long as no cluster's own list was cut before.
import Mathlib.Algebra.Order.BigOperators.Group.List
import PromFleet.Alerts

namespace prom_fleet.mcptools

open fleet render List

/-! ## Reads do not panic -/

section Calm

variable {α β : Type}

/-- A call that does not end in a panic. -/
def Calm (x : Except Refusal α) : Prop := x ≠ .error .crash

theorem calm_ok (a : α) : Calm (.ok a) := fun h => by cases h

theorem calm_error (e : ToolError) : Calm (.error (.error e) : Except Refusal α) :=
  fun h => by cases h

theorem Calm.bind {x : Except Refusal α} {f : α → Except Refusal β} (hx : Calm x)
    (hf : ∀ a, Calm (f a)) : Calm (x >>= f) := by
  cases x with
  | error e =>
    intro h
    cases h
    exact hx rfl
  | ok a => exact hf a

end Calm

namespace Tools

variable {t : Tools} {L : AlertLib} {p : Principal}

theorem calm_clusterArg (t : Tools) (p : Principal) (id : String) : Calm (t.clusterArg p id) := by
  unfold clusterArg
  cases resolveCluster t.texts t.fleet p id with
  | error e => exact calm_error e
  | ok c => exact calm_ok c

theorem calm_parseFormat (t : Tools) (s : String) (allowJSON : Bool) :
    Calm (t.parseFormat s allowJSON) := by
  unfold parseFormat
  dsimp only
  split
  · exact calm_error _
  split
  · exact calm_error _
  · exact calm_ok _

theorem calm_alertStateArg (t : Tools) (cluster state : String) :
    Calm (t.alertStateArg cluster state) := by
  unfold alertStateArg
  dsimp only
  generalize (if state = "" then "firing" else state) = asked
  split
  · exact calm_ok _
  · exact calm_error _

theorem calm_fetchAlerts (t : Tools) (cluster : String) (answer : AlertsAnswer) :
    Calm (t.fetchAlerts cluster answer) := by
  unfold fetchAlerts
  split
  · exact calm_error _
  · exact calm_error _
  · exact calm_ok _

theorem calm_alerts (t : Tools) (L : AlertLib) (p : Principal) (arg : AlertsIn)
    (answer : AlertsAnswer) : Calm (t.alerts L p arg answer) := by
  refine (calm_clusterArg t p _).bind fun c => ?_
  refine (calm_parseFormat t _ _).bind fun format => ?_
  refine (calm_alertStateArg t _ _).bind fun state => ?_
  exact (calm_fetchAlerts t _ _).bind fun raw => calm_ok _

/-! ## The list of one cluster -/

/-- The number of firing alerts in an answer. -/
def firingCount (t : Tools) (raw : List UpstreamAlert) : Nat :=
  raw.countP fun a => normalizeAlertState t.texts a.state = .firing

def firingList (t : Tools) (L : AlertLib) (raw : List UpstreamAlert) : List AlertInfo :=
  (t.matched L (firingArg "") "firing" raw).insertionSort AlertInfo.before

/-- The list of the cluster is within the limit and under the ceiling of the tool. -/
def FitsAlone (t : Tools) (L : AlertLib) (raw : List UpstreamAlert) : Prop :=
  (t.firingCount raw : Int) ≤ maxFleetAlerts ∧
    (0 < t.tokenCeiling → L.tokens (t.firingList L raw) ≤ t.tokenCeiling ∨
      t.firingCount raw = 0)

instance (t : Tools) (L : AlertLib) (raw : List UpstreamAlert) : Decidable (t.FitsAlone L raw) :=
  inferInstanceAs (Decidable (_ ∧ _))

theorem text_eq_firing (state : AlertState) : state.text = "firing" ↔ state = .firing := by
  cases state <;> decide

/-- The filters of the resource let the firing alerts through, and no others. -/
theorem matchAlert_firing (a : UpstreamAlert) : t.matchAlert L (firingArg "") "firing" a =
      if normalizeAlertState t.texts a.state = .firing then
        some (convertAlert t.texts L a true) else none := by
  have hselect : matchesSelector a.labels ∅ = true := by simp [matchesSelector]
  unfold matchAlert firingArg
  simp only [hselect, ne_eq, not_true_eq_false, false_and, if_false, Bool.true_eq_false,
    text_eq_firing]
  by_cases hstate : normalizeAlertState t.texts a.state = .firing
  · simp [convertAlert, hstate]
  · simp [convertAlert, hstate]

variable (raw : List UpstreamAlert)

theorem length_matched : (t.matched L (firingArg "") "firing" raw).length = t.firingCount raw := by
  unfold matched firingCount
  induction raw with
  | nil => rfl
  | cons a raw ih =>
    rw [filterMap_cons, matchAlert_firing, countP_cons]
    by_cases hstate : normalizeAlertState t.texts a.state = .firing
    · simp [hstate, ih]
    · simp [hstate, ih]

theorem length_firingList : (t.firingList L raw).length = t.firingCount raw := by
  unfold firingList
  rw [length_insertionSort, length_matched]

theorem alerts_firing_ok {id : String} {answer : AlertsAnswer} {res : AlertsOut}
    (h : t.alerts L p (firingArg id) answer = .ok res) : ∃ raw, answer = .ok (.ok raw) ∧
      res = t.listAlerts L maxFleetAlerts .compact (t.matched L (firingArg "") "firing" raw) := by
  obtain ⟨c, -, h⟩ := bind_eq_ok.mp h
  obtain ⟨format, hformat, h⟩ := bind_eq_ok.mp h
  obtain ⟨state, hstate, h⟩ := bind_eq_ok.mp h
  obtain ⟨raw, hraw, h⟩ := bind_eq_ok.mp h
  cases h
  cases hformat
  cases hstate
  refine ⟨raw, ?_, rfl⟩
  unfold fetchAlerts at hraw
  split at hraw
  · cases hraw
  · cases hraw
  · cases hraw
    rfl

/-- The list of a cluster never has more than its firing alerts, and has all of them if and
only if it fits. -/
theorem length_listAlerts :
    let listed := t.listAlerts L maxFleetAlerts .compact (t.matched L (firingArg "") "firing" raw)
    listed.alerts.length ≤ t.firingCount raw ∧
      (listed.alerts.length = t.firingCount raw ↔ t.FitsAlone L raw) := by
  have hlimit : clampInt maxFleetAlerts 50 1 300 = maxFleetAlerts := by decide
  unfold listAlerts
  dsimp only
  rw [if_neg (by decide), hlimit]
  constructor
  · exact (length_cutList_le (by decide)).trans_eq (length_firingList raw)
  rw [← length_firingList raw]
  refine (length_cutList_eq (by decide)).trans ?_
  unfold FitsAlone
  rw [← length_firingList raw, length_eq_zero_iff]
  exact Iff.rfl

end Tools

/-! ## The merged list -/

section Sums

variable {α : Type} {f g : α → Nat}

theorem sum_map_eq_iff {l : List α} (hle : ∀ x ∈ l, f x ≤ g x) :
    (l.map f).sum = (l.map g).sum ↔ ∀ x ∈ l, f x = g x := by
  induction l with
  | nil => simp
  | cons x l ih =>
    have hx := hle x mem_cons_self
    have hrest : ∀ y ∈ l, f y ≤ g y := fun y hy => hle y (mem_cons_of_mem x hy)
    have hsum := sum_le_sum hrest
    rw [map_cons, map_cons, sum_cons, sum_cons, forall_mem_cons, ← ih hrest]
    omega

end Sums

namespace Tools

variable {t : Tools} {L : AlertLib} {p : Principal} {world : Cluster → Fleet × AlertsAnswer}

def readClusters (t : Tools) (p : Principal) : List Cluster :=
  (t.fleetClusters p).take maxClustersCeiling

variable (t L p world) in
def upstreamFiring (c : Cluster) : Nat :=
  match (t.firingEntry L p world c).answered, (world c).2 with
  | true, .ok (.ok raw) => t.firingCount raw
  | _, _ => 0

variable (t L p world) in
def Uncut (c : Cluster) : Prop :=
  (t.firingEntry L p world c).answered = true →
    ∀ raw, (world c).2 = .ok (.ok raw) → t.FitsAlone L raw

/-- An entry adds no more alerts than its cluster reports, and all of them if and only if its
list was not cut. -/
theorem length_found (c : Cluster) :
    (t.firingEntry L p world c).found.length ≤ t.upstreamFiring L p world c ∧
      ((t.firingEntry L p world c).found.length = t.upstreamFiring L p world c ↔
        t.Uncut L p world c) := by
  unfold upstreamFiring Uncut
  cases hentry : (t.firingEntry L p world c).2 with
  | error e =>
    have hfound : (t.firingEntry L p world c).found = [] := by simp [AlertsEntry.found, hentry]
    have hanswered : (t.firingEntry L p world c).answered = false := by
      simp [AlertsEntry.answered, hentry]
    simp [hfound, hanswered]
  | ok res =>
    have hanswered : (t.firingEntry L p world c).answered = true := by
      simp [AlertsEntry.answered, hentry]
    have hfound : (t.firingEntry L p world c).found.length = res.alerts.length := by
      simp [AlertsEntry.found, hentry]
    obtain ⟨raw, hraw, hres⟩ := alerts_firing_ok hentry
    obtain ⟨hle, hiff⟩ := length_listAlerts raw
    have hlen : res.alerts.length = (t.listAlerts L maxFleetAlerts .compact
        (t.matched L (firingArg "") "firing" raw)).alerts.length := by
      rw [hres]
      rfl
    simp only [hanswered, hraw, hfound, hlen]
    refine ⟨hle, hiff.trans ⟨?_, ?_⟩⟩
    · rintro hfits - raw' hraw'
      cases hraw'
      exact hfits
    · intro huncut
      exact huncut trivial raw rfl

variable (t L p world) in
/-- No read of the resource ends in a panic. -/
theorem readFiringAlerts_eq :
    t.readFiringAlerts L p world = .ok (t.mergeFiringAlerts L (t.fleetClusters p).length
      (((t.fleetClusters p).drop maxClustersCeiling).map notRead)
      ((t.readClusters p).map (t.firingEntry L p world))) := by
  unfold readFiringAlerts
  dsimp only
  rw [if_neg]
  · rfl
  intro hany
  obtain ⟨e, he, hcrashed⟩ := any_eq_true.mp hany
  obtain ⟨c, -, rfl⟩ := mem_map.mp he
  unfold AlertsEntry.crashed at hcrashed
  split at hcrashed
  · rename_i hcrash
    exact calm_alerts _ L p _ _ hcrash
  · cases hcrashed

/-- The total is the number of firing alerts that the answering clusters report, if and only
if none of their lists was cut. -/
theorem total_eq_iff (requested : Nat) (skipped : List ClusterFailure) (clusters : List Cluster) :
    (t.mergeFiringAlerts L requested skipped (clusters.map (t.firingEntry L p world))).total =
        (clusters.map (t.upstreamFiring L p world)).sum ↔
      ∀ c ∈ clusters, t.Uncut L p world c := by
  have htotal : (t.mergeFiringAlerts L requested skipped
      (clusters.map (t.firingEntry L p world))).total =
        (clusters.map fun c => (t.firingEntry L p world c).found.length).sum := by
    unfold mergeFiringAlerts
    dsimp only
    rw [(L.sortFleet_perm _).length_eq, length_flatMap, map_map]
    rfl
  rw [htotal, sum_map_eq_iff fun c _ => (length_found c).1]
  constructor
  · intro h c hc
    exact (length_found c).2.mp (h c hc)
  · intro h c hc
    exact (length_found c).2.mpr (h c hc)

end Tools

/-! ## The law -/

/-- The resource counts every firing alert of the clusters that answered, and says whether
and how far it is cut, if and only if no cluster's own list is cut. -/
theorem firing_alerts_are_counted_iff_no_list_is_cut (t : Tools) (L : AlertLib) (p : Principal)
    (world : Cluster → Fleet × AlertsAnswer) :
    (∃ out, t.readFiringAlerts L p world = .ok out ∧
      out.total = ((t.readClusters p).map (t.upstreamFiring L p world)).sum ∧
      (out.truncated ≠ none ↔ out.alerts.length < out.total) ∧
      ∀ trunc, out.truncated = some trunc →
        trunc.returned = out.alerts.length ∧ trunc.total = out.total) ↔
      ∀ c ∈ t.readClusters p, t.Uncut L p world c := by
  rw [t.readFiringAlerts_eq L p world, ← Tools.total_eq_iff]
  constructor
  · rintro ⟨out, hout, htotal, -⟩
    cases hout
    exact htotal
  · intro htotal
    exact ⟨_, rfl, htotal, cutList_honest (by decide)⟩

/-- A library in which every alert has the same size. With its cluster it is a little
larger. -/
def evenAlerts (size : Int) : AlertLib where
  order := map_range.ascending
  hostname _ := none
  table _ := ""
  tokens l := size * l.length
  fleetTokens l := (size + size / 8) * l.length
  sortFleet l := l.insertionSort FleetAlert.before
  sortFleet_perm := perm_insertionSort _
  sortFleet_sorted := pairwise_insertionSort _

def watchdog : UpstreamAlert where
  labels := Finmap.singleton "alertname" "Watchdog"
  annotations := ∅
  state := "firing"
  activeAt := ""
  value := "1"

/-- The one cluster answers with so many firing alerts. -/
def watchdogs (n : Nat) (_ : Cluster) : Fleet × AlertsAnswer :=
  (fleetOf ["east"], .ok (.ok (List.replicate n watchdog)))

/-- Three large alerts fit into the list of their cluster, and two of them into the list of
the fleet, which says so. -/
theorem two_of_three_alerts_are_listed :
    ∃ out trunc, smallTools.readFiringAlerts (evenAlerts 8000) onlyEast (watchdogs 3) = .ok out ∧
      out.total = 3 ∧ out.alerts.length = 2 ∧ out.truncated = some trunc ∧
      trunc.returned = 2 ∧ trunc.total = 3 := by
  obtain ⟨out, hout, -, hcut, hsays⟩ := (firing_alerts_are_counted_iff_no_list_is_cut smallTools
    (evenAlerts 8000) onlyEast (watchdogs 3)).mpr (by
      intro c _ _ raw hraw
      cases hraw
      decide +kernel)
  cases hout
  obtain ⟨trunc, htrunc⟩ := Option.ne_none_iff_exists'.mp (hcut.mpr (by decide +kernel))
  obtain ⟨hreturned, hall⟩ := hsays trunc htrunc
  exact ⟨_, trunc, rfl, by decide +kernel, by decide +kernel, htrunc,
    hreturned.trans (by decide +kernel), hall.trans (by decide +kernel)⟩

/-! ## What the condition excludes -/

/-- One alert of two hundred and one is lost in the list of its cluster, and the resource
says that nothing is missing. -/
theorem an_alert_is_dropped_in_silence :
    (smallTools.readFiringAlerts (evenAlerts 80) onlyEast (watchdogs 201)).toOption.map
        (fun out => (out.alerts.length, out.total, out.truncated, out.coverage.complete)) =
      some (200, 200, none, true) ∧
    ((smallTools.readClusters onlyEast).map
      (smallTools.upstreamFiring (evenAlerts 80) onlyEast (watchdogs 201))).sum = 201 := by
  decide +kernel

end prom_fleet.mcptools
