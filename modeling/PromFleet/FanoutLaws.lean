-- The law of the coverage: for every schedule of the workers, the account of a fan-out is a
-- partition of what was selected, and every merged row is of a cluster that answered.
import PromFleet.Fanout
import PromFleet.Sanitize

namespace prom_fleet.mcptools

open fleet registry render worker_pool List map_range

/-! ## What is selected -/

section Names

theorem nodup_dedupe (l : List String) : (dedupe l).Nodup := by
  induction l with
  | nil => exact nodup_nil
  | cons x rest ih =>
    refine nodup_cons.mpr ⟨?_, ih.filter _⟩
    simp

theorem map_filterMap_sublist {α β γ : Type} {l : List α} {g : α → Option β} {f : β → γ}
    {k : α → γ} (h : ∀ x ∈ l, ∀ y, g x = some y → f y = k x) :
    ((l.filterMap g).map f).Sublist (l.map k) := by
  induction l with
  | nil => exact .slnil
  | cons x l ih =>
    have ih := ih fun z hz => h z (mem_cons_of_mem x hz)
    cases hx : g x with
    | none =>
      rw [filterMap_cons_none hx]
      exact ih.cons _
    | some y =>
      rw [filterMap_cons_some hx, map_cons, map_cons, h x mem_cons_self y hx]
      exact ih.cons_cons _

theorem nodup_seen (F : Fleet) (p : Principal) : (F.seen p).Nodup := by
  unfold Fleet.seen Fleet.visible Reg.visible
  cases hscope : p.scope with
  | none => simp [hscope]
  | some scope =>
    simp only [Option.bind_some, hscope]
    refine (((perm_insertionSort _ _).map _).nodup_iff).mpr ?_
    refine (F.orders.entries.nodup_keys F.reg.entries).sublist (map_filterMap_sublist ?_)
    intro x hx c hc
    split at hc
    · obtain ⟨hmerged, -⟩ := Option.filter_eq_some_iff.mp hc
      rw [← Option.some.inj hmerged]
      exact F.named x.1 x.2 ((Range.mem_list _ _).mp hx)
    · cases hc

end Names

section ByID

variable {visible : List Cluster}

/-- With distinct names, the map has the clusters under their names. -/
theorem lookup_byID (h : (visible.map Cluster.id).Nodup) (name : String) (c : Cluster) :
    (Tools.byID visible).lookup name = some c ↔ c ∈ visible ∧ c.id = name := by
  refine (lookup_inserts_empty Cluster.id (fun c => c) h).trans ?_
  constructor
  · rintro ⟨c, hc, hid, rfl⟩
    exact ⟨hc, hid⟩
  · rintro ⟨hc, hid⟩
    exact ⟨c, hc, hid, rfl⟩

theorem byID_isNone (h : (visible.map Cluster.id).Nodup) (name : String) :
    ((Tools.byID visible).lookup name).isNone = true ↔ name ∉ visible.map Cluster.id := by
  constructor
  · intro hnone hmem
    obtain ⟨c, hc, hid⟩ := mem_map.mp hmem
    rw [(lookup_byID h name c).mpr ⟨hc, hid⟩] at hnone
    cases hnone
  · intro hnot
    cases hlook : (Tools.byID visible).lookup name with
    | none => rfl
    | some c =>
      obtain ⟨hc, hid⟩ := (lookup_byID h name c).mp hlook
      exact absurd (mem_map.mpr ⟨c, hc, hid⟩) hnot

end ByID

namespace Tools

variable {t : Tools} {p : Principal} {arg : FanoutQueryIn} {maxClusters : Int}
  {chosen : List Cluster} {known : List ClusterFailure}

/-- The requested names that are no cluster the caller sees, each once. -/
def hiddenNames (t : Tools) (p : Principal) (arg : FanoutQueryIn) : List String :=
  (dedupe arg.clusters).filter fun name => decide (name ∉ t.fleet.seen p)

/-- What is selected is visible, each cluster once, and the failures known by then are those
of the hidden names. -/
theorem selected_ok (h : t.selected p arg maxClusters = .ok (chosen, known)) :
    chosen ⊆ t.fleet.visible p ∧ (chosen.map Cluster.id).Nodup ∧
      known = (t.hiddenNames p arg).map t.unreachable := by
  have hseen : ((t.fleet.visible p).map Cluster.id).Nodup := nodup_seen t.fleet p
  unfold selected at h
  dsimp only at h
  split at h
  · cases h
    refine ⟨?_, ?_, ?_⟩
    · intro c hc
      obtain ⟨name, -, hlook⟩ := mem_filterMap.mp hc
      exact ((lookup_byID hseen name c).mp hlook).1
    · have hsub := map_filterMap_sublist (l := dedupe arg.clusters) (k := fun name => name)
        (f := Cluster.id)
        fun name _ c hlook => ((lookup_byID hseen name c).mp hlook).2
      rw [map_id'] at hsub
      exact (nodup_dedupe arg.clusters).sublist hsub
    · unfold hiddenNames
      congr 1
      apply filter_congr
      intro name _
      rw [Bool.eq_iff_iff, byID_isNone hseen, decide_eq_true_eq]
      rfl
  · rename_i hnone
    have hhidden : t.hiddenNames p arg = [] := by
      unfold hiddenNames
      rw [not_not.mp hnone]
      rfl
    rw [hhidden]
    split at h
    · cases h
      exact ⟨filter_sublist.subset, hseen.sublist (filter_sublist.map _), rfl⟩
    split at h
    · cases h
    · cases h
      exact ⟨List.Subset.refl _, hseen, rfl⟩

end Tools

/-! ## What the workers file -/

section Workers

variable {V M X Y S R : Type} {T : Texts} {instant : Renderer V X} {range : Renderer M Y}
  {plan : FanoutPlan} {c : Cluster}

/-- A result of a target: it names the target, keeps to the bound, and has no rows if it is
filed as timed out without an error. -/
structure Fair (plan : FanoutPlan) (c : Cluster) (r : FanoutResult X Y) : Prop where
  cluster : r.cluster = c.id
  instant_le : (r.instant.rows.length : Int) ≤ plan.maxSeries
  range_le : (r.rangeResult.rows.length : Int) ≤ plan.maxSeries
  silent : r.timedOut = true → r.err = none → r.instant.rows = [] ∧ r.rangeResult.rows = []

theorem length_encode_le {r : Renderer S R} {limit : Int} (hlimit : 0 < limit)
    (samples : List S) (warnings : List String) :
    ((encode T r limit samples warnings).rows.length : Int) ≤ limit := by
  unfold encode
  dsimp only
  rw [length_map, truncateItems_take hlimit]
  have := length_take_le limit.toNat (r.rank samples)
  omega

variable (hmax : 0 < plan.maxSeries)

include hmax

theorem fair_failed (e : ToolError) (timedOut : Bool) :
    Fair plan c (FanoutResult.failed c.id e timedOut : FanoutResult X Y) :=
  ⟨rfl, hmax.le, hmax.le, fun _ h => by cases h⟩

theorem fair_encodeOne (vector : List V) (matrix : List M) (warnings : List String) :
    Fair plan c (encodeOne T instant range plan c vector matrix warnings) := by
  unfold encodeOne
  cases plan.mode with
  | instant => exact ⟨rfl, length_encode_le hmax _ _, hmax.le, fun h => by cases h⟩
  | range => exact ⟨rfl, hmax.le, length_encode_le hmax _ _, fun h => by cases h⟩

theorem fair_queryOne (a : Answer V M) : Fair plan c (queryOne T instant range plan c a) := by
  unfold queryOne
  split
  · exact fair_failed hmax _ _
  · exact fair_failed hmax _ _
  · split
    · exact fair_failed hmax _ _
    · split
      · exact fair_failed hmax _ _
      · exact fair_encodeOne hmax _ _ _
  · split
    · exact fair_failed hmax _ _
    · exact fair_encodeOne hmax _ _ _
  · exact fair_failed hmax _ _
  · split
    · exact fair_failed hmax _ _
    · exact fair_encodeOne hmax _ _ _

variable {acts : List (Act (Answer V M))} {s : State (FanoutResult X Y)}

/-- When the workers are done, each target has one fair result, in the order of the
targets. -/
theorem fair_results (hrun : (dispatch T instant range plan).run .start acts = some s)
    (hdone : (dispatch T instant range plan).Done s) :
    List.Forall₂ (Fair plan) plan.targets ((dispatch T instant range plan).results s) := by
  refine (((Pool.sound_start).run hrun).results_of_done hdone).imp ?_
  rintro c r (rfl | ⟨a, rfl⟩)
  · exact ⟨rfl, hmax.le, hmax.le, fun _ _ => ⟨rfl, rfl⟩⟩
  · exact fair_queryOne hmax a

omit hmax

/-- Whatever the workers of an accepted fan-out have done, they can come to their end. -/
theorem accepted_fanouts_can_end {t : Tools} {p : Principal} {clock : Clock} {arg : FanoutQueryIn}
    (hplan : t.fanoutQuery p clock arg = .ok plan) (a : Answer V M)
    (hrun : (dispatch T instant range plan).run .start acts = some s) :
    ∃ acts' s', (dispatch T instant range plan).run s acts' = some s' ∧
      (dispatch T instant range plan).Done s' := by
  obtain ⟨hselect, -, -, hworkers, -⟩ := Tools.fanoutQuery_ok hplan
  have hlen := length_pos_of_ne_nil (Tools.targets_ne_nil hselect (lt_min (by omega) (by decide)))
  refine ((Pool.sound_start).run hrun).ends ?_ a
  unfold dispatch
  dsimp only
  omega

end Workers

/-! ## The account -/

section Account

variable {vs : List (String × Verdict)}

def Labelled (vs : List (String × Verdict)) : Prop :=
  ∀ x ∈ vs, ∀ f, x.2.failure? = some f → f.cluster = x.1

/-- The three kinds of an account are a partition of its names. -/
theorem kinds_perm (h : Labelled vs) :
    (named vs Verdict.isOk ++ ((vs.filterMap fun x => x.2.failure?).map ClusterFailure.cluster ++
      named vs Verdict.isTimedOut)).Perm (vs.map Prod.fst) := by
  induction vs with
  | nil => exact .nil
  | cons x vs ih =>
    have ih := ih fun y hy => h y (mem_cons_of_mem x hy)
    obtain ⟨name, v⟩ := x
    cases v with
    | ok => exact ih.cons name
    | failed f =>
      have hf : f.cluster = name := h _ mem_cons_self f rfl
      rw [map_cons, ← hf]
      exact perm_middle.trans (ih.cons f.cluster)
    | timedOut =>
      refine .trans ?_ (ih.cons name)
      rw [← append_assoc, ← append_assoc]
      exact perm_middle

/-- All the names of an account. -/
def PerCluster.names (pc : PerCluster) : List String :=
  pc.ok ++ (pc.failed.map ClusterFailure.cluster ++ pc.timedOut)

variable (targets preFailures : Nat)

theorem names_accountCoverage (h : Labelled vs) :
    (accountCoverage targets preFailures vs).2.names.Perm (vs.map Prod.fst) := by
  refine .trans ?_ (kinds_perm h)
  exact (perm_insertionSort _ _).append
    (((perm_insertionSort _ _).map _).append (perm_insertionSort _ _))

end Account

/-! ## The merge -/

section Merge

variable {S R Q : Type} {r : Renderer S R} {ceiling maxSeries bound : Int}
  {ceilingHint seriesHint : String} {pick : Q → Option ToolError × String × Encoded R}
  {results : List Q}

theorem mem_merge_rows {name : String}
    (h : name ∈ (merge r ceiling maxSeries ceilingHint seriesHint pick results).rows.map Prod.fst) :
    ∃ q ∈ results, (pick q).1 = none ∧ (pick q).2.1 = name ∧ (pick q).2.2.rows ≠ [] := by
  obtain ⟨row, hrow, rfl⟩ := mem_map.mp h
  unfold merge at hrow
  dsimp only at hrow
  obtain ⟨k, hk⟩ := fitTokens_take r.tokens ceiling
    ((results.map pick).flatMap fun x => mergeRows r x.1 x.2.1 x.2.2)
  rw [hk] at hrow
  obtain ⟨x, hx, hmem⟩ := mem_flatMap.mp (mem_of_mem_take hrow)
  obtain ⟨q, hq, rfl⟩ := mem_map.mp hx
  unfold mergeRows at hmem
  split at hmem
  · cases hmem
  rename_i hok
  obtain ⟨e, he, rfl⟩ := mem_map.mp hmem
  exact ⟨q, hq, by simpa using hok, rfl, ne_nil_of_mem he⟩

variable (err : Option ToolError)

theorem fst_mergeRows (cluster : String) (e : Encoded R) :
    (mergeRows r err cluster e).map Prod.fst =
      List.replicate (mergeRows r err cluster e).length cluster := by
  rw [eq_replicate_iff]
  refine ⟨length_map _, ?_⟩
  intro name hname
  obtain ⟨row, hrow, rfl⟩ := mem_map.mp hname
  unfold mergeRows at hrow
  split at hrow
  · cases hrow
  · obtain ⟨_, -, rfl⟩ := mem_map.mp hrow
    rfl

theorem length_mergeRows_le (cluster : String) (e : Encoded R) :
    (mergeRows r err cluster e).length ≤ e.rows.length := by
  unfold mergeRows
  split
  · exact Nat.zero_le _
  · exact (length_map _).le

/-- Before the last cut, a cluster has no more rows than its result has. -/
theorem count_flatMap_rows (hnodup : (results.map fun q => (pick q).2.1).Nodup)
    (hle : ∀ q ∈ results, ((pick q).2.2.rows.length : Int) ≤ bound) (hbound : 0 ≤ bound)
    (name : String) :
    ((((results.map pick).flatMap fun x => mergeRows r x.1 x.2.1 x.2.2).map Prod.fst).count name
      : Int) ≤ bound := by
  induction results with
  | nil => simpa using hbound
  | cons q results ih =>
    obtain ⟨hq, hrest⟩ := nodup_cons.mp hnodup
    have ih := ih hrest fun q' hq' => hle q' (mem_cons_of_mem q hq')
    rw [map_cons, flatMap_cons, map_append, count_append, fst_mergeRows]
    by_cases hname : (pick q).2.1 = name
    · -- the names of the other results are different
      have hzero : (((results.map pick).flatMap fun x => mergeRows r x.1 x.2.1 x.2.2).map
          Prod.fst).count name = 0 := by
        rw [count_eq_zero]
        intro hmem
        obtain ⟨row, hrow, hfst⟩ := mem_map.mp hmem
        obtain ⟨x, hx, hin⟩ := mem_flatMap.mp hrow
        have hrep : row.1 ∈ (mergeRows r x.1 x.2.1 x.2.2).map Prod.fst := mem_map_of_mem hin
        rw [fst_mergeRows] at hrep
        obtain ⟨q', hq', rfl⟩ := mem_map.mp hx
        apply hq
        dsimp only
        rw [hname, ← hfst, eq_of_mem_replicate hrep]
        exact mem_map_of_mem (f := fun q => (pick q).2.1) hq'
      have hown := length_mergeRows_le (r := r) (pick q).1 (pick q).2.1 (pick q).2.2
      have hcap := hle q mem_cons_self
      rw [hzero, hname, count_replicate_self]
      rw [hname] at hown
      omega
    · rw [count_replicate, if_neg (by simpa using hname)]
      simpa using ih

theorem count_merge_rows (hnodup : (results.map fun q => (pick q).2.1).Nodup)
    (hle : ∀ q ∈ results, ((pick q).2.2.rows.length : Int) ≤ bound) (hbound : 0 ≤ bound)
    (name : String) :
    (((merge r ceiling maxSeries ceilingHint seriesHint pick results).rows.map Prod.fst).count name
      : Int) ≤ bound := by
  obtain ⟨k, hk⟩ := fitTokens_take r.tokens ceiling
    ((results.map pick).flatMap fun x => mergeRows r x.1 x.2.1 x.2.2)
  have hall := count_flatMap_rows (r := r) hnodup hle hbound name
  have hcut := ((take_sublist k ((results.map pick).flatMap fun x =>
    mergeRows r x.1 x.2.1 x.2.2)).map Prod.fst).count_le name
  unfold merge
  dsimp only
  rw [hk]
  omega

end Merge

/-! ## The law -/

section Law

variable {V M X Y : Type} {t : Tools} {p : Principal} {clock : Clock} {arg : FanoutQueryIn}
  {instant : Renderer V X} {range : Renderer M Y} {plan : FanoutPlan}
  {results : List (FanoutResult X Y)} {chosen : List Cluster}

def FanoutOut.rowClusters (out : FanoutOut X Y) : List String :=
  out.instant.rows.map Prod.fst ++ out.range.rows.map Prod.fst

/-- A failure that was known before, as the account reports it. -/
def Tools.reported (t : Tools) (f : ClusterFailure) : ClusterFailure :=
  ⟨f.cluster, f.code, t.texts.clipRunes f.message 200, false⟩

variable (t p arg plan chosen) in
/-- The account of a fan-out is exact. -/
structure ExactCoverage (out : FanoutOut X Y) : Prop where
  /-- The counts add up. -/
  sum : out.coverage.requested =
    out.coverage.ok + out.coverage.failed + out.coverage.timedOut
  /-- Each count is the length of its list. -/
  lengths : out.coverage.ok = out.perCluster.ok.length ∧
    out.coverage.failed = out.perCluster.failed.length ∧
    out.coverage.timedOut = out.perCluster.timedOut.length
  /-- Each selected cluster is in exactly one list, once. -/
  once : ∀ c ∈ chosen, out.perCluster.names.count c.id = 1
  /-- Each hidden name has exactly one failure, and the others are of selected clusters. -/
  hidden : ∃ others, out.perCluster.failed.Perm
      ((t.hiddenNames p arg).map (fun name => t.reported (t.unreachable name)) ++ others) ∧
    ∀ f ∈ others, f.cluster ∈ chosen.map Cluster.id
  /-- A complete answer is one in which all that was asked for is there. -/
  complete : out.coverage.complete = true ↔
    t.hiddenNames p arg = [] ∧ ∀ c ∈ chosen, c.id ∈ out.perCluster.ok
  /-- The rows are of clusters that answered, a bounded number of each. -/
  answered : ∀ name ∈ out.rowClusters, name ∈ out.perCluster.ok
  capped : ∀ name, (out.rowClusters.count name : Int) ≤ plan.maxSeries
  /-- No cluster is asked that the caller does not see. -/
  visible : ∀ c ∈ plan.targets, c ∈ t.fleet.visible p ∧ c ∈ chosen

variable {name : String}

theorem cluster_of_failure {T : Texts} {err : Option ToolError} {timedOut : Bool}
    {f : ClusterFailure} (hf : (verdict T name err timedOut).failure? = some f) :
    f.cluster = name := by
  unfold verdict at hf
  split at hf
  · cases hf
  split at hf
  · cases hf
    rfl
  · cases hf

theorem labelled_verdicts : Labelled (verdicts t plan results) := by
  intro x hx f hf
  rcases mem_append.mp hx with hx | hx
  · obtain ⟨r, -, rfl⟩ := mem_map.mp hx
    dsimp only at hf ⊢
    exact cluster_of_failure hf
  · obtain ⟨g, -, rfl⟩ := mem_map.mp hx
    dsimp only at hf ⊢
    exact cluster_of_failure hf

variable (h : List.Forall₂ (Fair plan) plan.targets results)

include h

theorem clusters_of_fair : results.map FanoutResult.cluster = plan.targets.map Cluster.id := by
  generalize plan.targets = targets at h
  induction h with
  | nil => rfl
  | cons hfair _ ih => rw [map_cons, map_cons, hfair.cluster, ih]

/-- The names of an account are those of the targets and of the failures known before. -/
theorem fst_verdicts : (verdicts t plan results).map Prod.fst =
      plan.targets.map Cluster.id ++ plan.failures.map ClusterFailure.cluster := by
  unfold verdicts
  rw [map_append, map_map, map_map, ← clusters_of_fair h]
  rfl

omit h in
theorem failures_verdicts : ((verdicts t plan results).filterMap fun x => x.2.failure?) =
      (results.filterMap fun r => (verdict t.texts r.cluster r.err r.timedOut).failure?) ++
        plan.failures.map t.reported := by
  unfold verdicts
  rw [filterMap_append, filterMap_map, filterMap_map]
  congr 1
  rw [← filterMap_eq_map]
  rfl

variable {r : FanoutResult X Y}

theorem exists_target (hr : r ∈ results) : ∃ c ∈ plan.targets, Fair plan c r := by
  generalize plan.targets = targets at h
  induction h with
  | nil => cases hr
  | cons hfair _ ih =>
    rcases mem_cons.mp hr with rfl | hr
    · exact ⟨_, mem_cons_self, hfair⟩
    · obtain ⟨c, hc, hf⟩ := ih hr
      exact ⟨c, mem_cons_of_mem _ hc, hf⟩

theorem answered_of_rows (hr : r ∈ results)
    (herr : r.err = none) (hrows : r.instant.rows ≠ [] ∨ r.rangeResult.rows ≠ []) :
    r.cluster ∈ (report t instant range plan results).perCluster.ok := by
  obtain ⟨c, -, hfair⟩ := exists_target h hr
  have htime : r.timedOut = false := by
    cases htimed : r.timedOut with
    | false => rfl
    | true =>
      obtain ⟨hi, hr⟩ := hfair.silent htimed herr
      rcases hrows with h' | h'
      · exact absurd hi h'
      · exact absurd hr h'
  refine (mem_insertionSort _).mpr (mem_map.mpr ⟨(r.cluster, .ok), ?_, rfl⟩)
  refine mem_filter.mpr ⟨mem_append_left _ (mem_map.mpr ⟨r, hr, ?_⟩), rfl⟩
  rw [htime, herr]
  rfl

theorem answered_report (hname : name ∈ (report t instant range plan results).rowClusters) :
    name ∈ (report t instant range plan results).perCluster.ok := by
  rcases mem_append.mp hname with hname | hname
  · cases hmode : plan.mode with
    | range => simp [report, hmode, Merged.zero] at hname
    | instant =>
      simp only [report, hmode] at hname
      obtain ⟨r, hr, herr, rfl, hrows⟩ := mem_merge_rows hname
      exact answered_of_rows h hr herr (.inl hrows)
  · cases hmode : plan.mode with
    | instant => simp [report, hmode, Merged.zero] at hname
    | range =>
      simp only [report, hmode] at hname
      obtain ⟨r, hr, herr, rfl, hrows⟩ := mem_merge_rows hname
      exact answered_of_rows h hr herr (.inr hrows)

theorem capped_report
    (hmax : 0 < plan.maxSeries) (hnodup : (plan.targets.map Cluster.id).Nodup) (name : String) :
    ((report t instant range plan results).rowClusters.count name : Int) ≤ plan.maxSeries := by
  have hnames : (results.map FanoutResult.cluster).Nodup := by
    rw [clusters_of_fair h]
    exact hnodup
  unfold FanoutOut.rowClusters
  rw [count_append]
  cases hmode : plan.mode with
  | instant =>
    simp only [report, hmode, Merged.zero, map_nil, count_nil, Nat.add_zero]
    refine count_merge_rows hnames ?_ hmax.le name
    intro r hr
    obtain ⟨c, -, hfair⟩ := exists_target h hr
    exact hfair.instant_le
  | range =>
    simp only [report, hmode, Merged.zero, map_nil, count_nil, Nat.zero_add]
    refine count_merge_rows hnames ?_ hmax.le name
    intro r hr
    obtain ⟨c, -, hfair⟩ := exists_target h hr
    exact hfair.range_le

omit h

variable (t instant range plan results) in
/-- The counts of the account are the lengths of its lists, and add up. It is complete if all that
was requested answered. -/
theorem lengths_report : let out := report t instant range plan results
    (out.coverage.complete = true ↔
        out.coverage.ok = out.coverage.requested ∧ 0 < out.coverage.requested) ∧
      out.coverage.ok = out.perCluster.ok.length ∧
      out.coverage.failed = out.perCluster.failed.length ∧
      out.coverage.timedOut = out.perCluster.timedOut.length ∧
      out.perCluster.names.length =
        out.coverage.ok + out.coverage.failed + out.coverage.timedOut := by
  refine ⟨decide_eq_true_iff, ?_⟩
  unfold report accountCoverage PerCluster.names
  simp only [length_append, length_map, length_insertionSort, true_and]
  omega

variable (t p arg plan chosen) in
/-- What the plan of a fan-out says of the clusters that were selected. -/
structure Selection : Prop where
  chosen_ne : chosen ≠ []
  visible : chosen ⊆ t.fleet.visible p
  nodup : (chosen.map Cluster.id).Nodup
  cut : ∃ (sorted : List Cluster) (k : Nat) (maxClusters : Int), sorted.Perm chosen ∧
    plan.targets = sorted.take k ∧
    plan.failures = (t.hiddenNames p arg).map t.unreachable ++
      (sorted.drop k).map (Tools.notQueried maxClusters)

theorem selection_of_plan {known : List ClusterFailure}
    (hplan : t.fanoutQuery p clock arg = .ok plan)
    (hselected : t.selected p arg (clampInt arg.maxClusters 25 1 100) = .ok (chosen, known)) :
    Selection t p arg plan chosen := by
  obtain ⟨hselect, -⟩ := Tools.fanoutQuery_ok hplan
  obtain ⟨chosen', known', hselected', hne, sorted, hperm, htargets, hfailures⟩ :=
    Tools.selectClusters_ok hselect
  rw [hselected] at hselected'
  cases hselected'
  obtain ⟨hvisible, hnodup, rfl⟩ := Tools.selected_ok hselected
  exact ⟨hne, hvisible, hnodup, sorted, _, _, hperm, htargets, hfailures⟩

namespace Selection

variable (instant : Renderer V X) (range : Renderer M Y)

variable (hsel : Selection t p arg plan chosen)

include hsel

theorem targets_subset : plan.targets ⊆ chosen := by
  obtain ⟨sorted, k, maxClusters, hperm, htargets, -⟩ := hsel.cut
  intro c hc
  rw [htargets] at hc
  exact hperm.subset (mem_of_mem_take hc)

theorem nodup_targets : (plan.targets.map Cluster.id).Nodup := by
  obtain ⟨sorted, k, maxClusters, hperm, htargets, -⟩ := hsel.cut
  rw [htargets]
  exact (((hperm.map _).nodup_iff).mpr hsel.nodup).sublist ((take_sublist k sorted).map _)

/-- The account has the selected clusters and the hidden names, as they are printed. -/
theorem names_perm (h : List.Forall₂ (Fair plan) plan.targets results) :
    (report t instant range plan results).perCluster.names.Perm (chosen.map Cluster.id ++
        (t.hiddenNames p arg).map fun name => t.texts.clipRunes name 128) := by
  obtain ⟨sorted, k, maxClusters, hperm, htargets, hfailures⟩ := hsel.cut
  have hcut : (plan.targets.map Cluster.id ++ plan.failures.map ClusterFailure.cluster).Perm
      (sorted.map Cluster.id ++
        (t.hiddenNames p arg).map fun name => t.texts.clipRunes name 128) := by
    rw [htargets, hfailures, map_append, map_map, map_map]
    conv_rhs => rw [← take_append_drop k sorted, map_append, append_assoc]
    exact perm_append_comm.append_left _
  refine (names_accountCoverage plan.targets.length plan.failures.length labelled_verdicts).trans ?_
  rw [fst_verdicts h]
  exact hcut.trans ((hperm.map _).append_right _)

theorem failed_perm (h : List.Forall₂ (Fair plan) plan.targets results) :
    ∃ others, (report t instant range plan results).perCluster.failed.Perm
        ((t.hiddenNames p arg).map (fun name => t.reported (t.unreachable name)) ++ others) ∧
      ∀ f ∈ others, f.cluster ∈ chosen.map Cluster.id := by
  obtain ⟨sorted, k, maxClusters, hperm, -, hfailures⟩ := hsel.cut
  refine ⟨((sorted.drop k).map fun c => t.reported (Tools.notQueried maxClusters c)) ++
    results.filterMap fun r => (verdict t.texts r.cluster r.err r.timedOut).failure?, ?_, ?_⟩
  · refine (perm_insertionSort _ _).trans ?_
    rw [failures_verdicts, hfailures, map_append, map_map, map_map]
    refine perm_append_comm.trans ?_
    rw [append_assoc]
    exact .refl _
  · intro f hf
    rcases mem_append.mp hf with hf | hf
    · obtain ⟨c, hc, rfl⟩ := mem_map.mp hf
      exact mem_map_of_mem (hperm.subset (mem_of_mem_drop hc))
    obtain ⟨r, hr, hf⟩ := mem_filterMap.mp hf
    obtain ⟨c, hc, hfair⟩ := exists_target h hr
    rw [cluster_of_failure hf, hfair.cluster]
    exact mem_map_of_mem (hsel.targets_subset hc)

theorem requested_eq (results : List (FanoutResult X Y)) :
    (report t instant range plan results).coverage.requested =
      chosen.length + (t.hiddenNames p arg).length := by
  obtain ⟨sorted, k, maxClusters, hperm, htargets, hfailures⟩ := hsel.cut
  have hlen := hperm.length_eq
  unfold report accountCoverage
  dsimp only
  rw [htargets, hfailures]
  simp only [length_append, length_map, length_take, length_drop]
  omega

/-- A complete account is one with no failure in which each selected cluster answered. -/
theorem complete_iff (h : List.Forall₂ (Fair plan) plan.targets results) :
    (report t instant range plan results).coverage.complete = true ↔
      t.hiddenNames p arg = [] ∧
        ∀ c ∈ chosen, c.id ∈ (report t instant range plan results).perCluster.ok := by
  have hpos : 0 < chosen.length := length_pos_of_ne_nil hsel.chosen_ne
  have hnames := hsel.names_perm instant range h
  obtain ⟨hcomplete, hok, hfailed, htimed, hsum⟩ := lengths_report t instant range plan results
  obtain ⟨others, hperm, -⟩ := hsel.failed_perm instant range h
  have hrequested := hsel.requested_eq instant range results
  rw [hcomplete]
  generalize report t instant range plan results = out at *
  have hlen := hnames.length_eq
  have hhidden := hperm.length_eq
  simp only [length_append, length_map] at hlen hhidden
  constructor
  · rintro ⟨hall, -⟩
    refine ⟨length_eq_zero_iff.mp (by omega), ?_⟩
    intro c hc
    -- nothing failed and nothing timed out, so every name is among those that answered
    have hnofail : out.perCluster.failed = [] := length_eq_zero_iff.mp (by omega)
    have hnolate : out.perCluster.timedOut = [] := length_eq_zero_iff.mp (by omega)
    have hmem := hnames.symm.subset (mem_append_left _ (mem_map_of_mem hc))
    unfold PerCluster.names at hmem
    rw [hnofail, hnolate] at hmem
    simpa using hmem
  · rintro ⟨hnone, hall⟩
    have hsub : chosen.map Cluster.id ⊆ out.perCluster.ok := by
      intro name hname
      obtain ⟨c, hc, rfl⟩ := mem_map.mp hname
      exact hall c hc
    have hle := (hsel.nodup.subperm hsub).length_le
    rw [length_map] at hle
    rw [hnone, length_nil] at hrequested hlen
    omega

/-- A selected cluster is named once exactly if no hidden name is printed as its own. -/
theorem names_once_iff (h : List.Forall₂ (Fair plan) plan.targets results) {c : Cluster}
    (hc : c ∈ chosen) : (report t instant range plan results).perCluster.names.count c.id = 1 ↔
      ∀ name ∈ t.hiddenNames p arg, t.texts.clipRunes name 128 ≠ c.id := by
  have hown : (chosen.map Cluster.id).count c.id = 1 :=
    count_eq_one_of_mem hsel.nodup (mem_map_of_mem hc)
  rw [(hsel.names_perm instant range h).count_eq, count_append, hown, Nat.add_eq_left,
    count_eq_zero, mem_map]
  simp

end Selection

/-- For every schedule of the workers, every answer of the clusters and every moment of the
deadline, the account of a fan-out is exact if and only if no hidden name is printed as the name
of a selected cluster. -/
theorem coverage_is_exact_iff_hidden_names_print_apart {known : List ClusterFailure}
    {acts : List (Act (Answer V M))} {s : State (FanoutResult X Y)}
    (hplan : t.fanoutQuery p clock arg = .ok plan)
    (hselected : t.selected p arg (clampInt arg.maxClusters 25 1 100) = .ok (chosen, known))
    (hrun : (dispatch t.texts instant range plan).run .start acts = some s)
    (hdone : (dispatch t.texts instant range plan).Done s) : ExactCoverage t p arg plan chosen
      (report t instant range plan ((dispatch t.texts instant range plan).results s)) ↔
    ∀ name ∈ t.hiddenNames p arg, ∀ c ∈ chosen, t.texts.clipRunes name 128 ≠ c.id := by
  obtain ⟨-, -, -, -, hmax, -⟩ := Tools.fanoutQuery_ok hplan
  have hsel := selection_of_plan hplan hselected
  have hfair := fair_results hmax hrun hdone
  generalize (dispatch t.texts instant range plan).results s = results at hfair
  obtain ⟨-, hok, hfailed, htimed, hsum⟩ := lengths_report t instant range plan results
  have hlen := (hsel.names_perm instant range hfair).length_eq
  simp only [length_append, length_map] at hlen
  refine ⟨fun hexact name hname c hc =>
    (hsel.names_once_iff instant range hfair hc).mp (hexact.once c hc) name hname, fun hclear => ?_⟩
  exact {
    sum := by rw [hsel.requested_eq instant range results, ← hlen, hsum]
    lengths := ⟨hok, hfailed, htimed⟩
    once := fun c hc => (hsel.names_once_iff instant range hfair hc).mpr fun name hname =>
      hclear name hname c hc
    hidden := hsel.failed_perm instant range hfair
    complete := hsel.complete_iff instant range hfair
    answered := fun name hname => answered_report hfair hname
    capped := capped_report hfair hmax hsel.nodup_targets
    visible := fun c hc =>
      ⟨hsel.visible (hsel.targets_subset hc), hsel.targets_subset hc⟩ }

end Law

/-! ## A fan-out over one cluster -/

/-- The hub with the renderer's own way of clipping a text. -/
def clippingTools : Tools :=
  { smallTools with texts := { plainTexts with clipRunes := render.clipRunes } }

/-- Rows that are the samples themselves. -/
def plainRows : Renderer Nat Nat where
  rank l := l
  rank_perm := List.Perm.refl
  row _ s := s
  inject _ r := (r, none)
  tokens _ := 0

def instantOf (clusters : List String) : FanoutQueryIn :=
  { fanoutRangeOf "" "" with clusters := clusters, mode := "instant" }

/-- The only target is handed out and answers two samples. -/
def answersTwo : List (Act (Answer Nat Nat)) :=
  [.hand, .finish 0 (.ok (.ok (.vector (.ok [7, 8])), []))]

def workersOf (plan : FanoutPlan) : Pool Cluster (Answer Nat Nat) (FanoutResult Nat Nat) :=
  dispatch clippingTools.texts plainRows plainRows plan

def reportOf (plan : FanoutPlan) (s : State (FanoutResult Nat Nat)) : FanoutOut Nat Nat :=
  report clippingTools plainRows plainRows plan ((workersOf plan).results s)

theorem coverage_is_exact_with_a_hidden_name : ∃ plan chosen s,
      clippingTools.fanoutQuery onlyEast (stopped noon) (instantOf ["east", "gone"]) = .ok plan ∧
      (workersOf plan).run .start answersTwo = some s ∧
      (reportOf plan s).coverage = ⟨2, 1, 1, 0, false⟩ ∧
      ExactCoverage clippingTools onlyEast (instantOf ["east", "gone"]) plan chosen
        (reportOf plan s) := by
  have hexact := @coverage_is_exact_iff_hidden_names_print_apart _ _ _ _ clippingTools onlyEast
    (stopped noon) (instantOf ["east", "gone"]) plainRows plainRows _ _ _ answersTwo _ rfl rfl rfl
    (by decide +kernel)
  exact ⟨_, _, _, rfl, rfl, by decide +kernel, hexact.mpr (by decide +kernel)⟩

/-- A fan-out over one cluster can end once its target has been handed out. -/
theorem a_fanout_over_one_cluster_can_end : ∃ plan s acts s',
    clippingTools.fanoutQuery onlyEast (stopped noon) (instantOf ["east"]) = .ok plan ∧
    (workersOf plan).run .start [.hand] = some s ∧ (workersOf plan).run s acts = some s' ∧
    (workersOf plan).Done s' := by
  obtain ⟨acts, s', h⟩ := @accepted_fanouts_can_end _ _ _ _ clippingTools.texts plainRows plainRows
    _ [.hand] _ clippingTools onlyEast (stopped noon) (instantOf ["east"]) rfl
    (.ok (.ok (.vector (.ok [])), [])) rfl
  exact ⟨_, _, acts, s', rfl, rfl, h⟩

/-! ## What the condition excludes -/

/-- A name with a blank before it is not visible, and its failure is printed without the
blank: the cluster that answered is among the failed ones too. -/
theorem a_hidden_name_is_printed_as_an_answered_cluster : ∃ plan s,
      clippingTools.fanoutQuery onlyEast (stopped noon) (instantOf ["east", " east"]) = .ok plan ∧
      plan.targets.map Cluster.id = ["east"] ∧
      (workersOf plan).run .start answersTwo = some s ∧ (workersOf plan).Done s ∧
      (reportOf plan s).perCluster.ok = ["east"] ∧
      (reportOf plan s).perCluster.failed.map ClusterFailure.cluster = ["east"] ∧
      (reportOf plan s).perCluster.names.count "east" = 2 :=
  ⟨_, _, rfl, by decide +kernel, rfl, by decide +kernel, by decide +kernel, by decide +kernel,
    by decide +kernel⟩

end prom_fleet.mcptools
