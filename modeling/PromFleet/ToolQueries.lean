-- The query tools up to their request: `query`, `query_range` and `fanout_query` check
-- their arguments and either refuse or hand a call to the proxy.
import PromFleet.ToolTimes

namespace prom_fleet.mcptools

open fleet gotime render

/-! ## Arguments -/

/-- `QueryIn`. The fields that only the rendering of the answer reads are left out. -/
structure QueryIn where
  cluster : String
  query : String
  time : String
  timeout : String
  format : String

structure QueryRangeIn where
  cluster : String
  query : String
  start : String
  finish : String
  step : String
  maxPoints : Int
  maxSeries : Int
  timeout : String
  format : String

structure FanoutQueryIn where
  query : String
  clusters : List String
  labelSelector : StrMap String
  mode : String
  time : String
  start : String
  finish : String
  step : String
  maxClusters : Int
  maxSeriesPerCluster : Int
  concurrency : Int
  deadline : String
  onError : String

inductive Format where
  | compact
  | json
  | table
  deriving DecidableEq

structure ClusterFailure where
  cluster : String
  code : Code
  message : String
  retryable : Bool
  deriving DecidableEq

def dedupe : List String → List String
  | [] => []
  | s :: rest => s :: (dedupe rest).filter fun x => decide (x ≠ s)

def matchesSelector (labels sel : StrMap String) : Bool :=
  decide (∀ k ∈ sel.keys, labelOf labels k = labelOf sel k)

/-- `alignUp`. The division by a number of seconds that is zero is a panic. -/
def alignUp (L : GoLib) (t step : Int) : Except Refusal Int :=
  let sec := L.wholeSeconds step
  let rem := (unix t).tmod sec
  if sec = 0 then .error .crash
  else if rem = 0 then .ok (timeUnix (unix t) 0)
  else .ok (timeUnix (unix t - rem + sec) 0)

/-- What a range query is asked for: its clusters, the step of the caller (zero for none), the
point budget, and the window that is checked. -/
structure RangeAsk where
  targets : List Cluster
  userStep : Int
  maxPoints : Int
  checked : Int
  finish : Int

/-- The local variables of a range query: what it is asked for, the start that is sent, and the
step. -/
structure RangePlan extends RangeAsk where
  start : Int
  step : Int
  down : Downsampled

inductive FanoutMode where
  | instant
  | range
  deriving DecidableEq

/-- The local variables of `fanoutQuery` at its dispatch. -/
structure FanoutPlan where
  mode : FanoutMode
  ranged : Option RangePlan
  failOnError : Bool
  targets : List Cluster
  failures : List ClusterFailure
  concurrency : Int
  deadline : Int
  form : List (String × FormValue)
  perCluster : Int
  maxSeries : Int

namespace Tools

variable (t : Tools)

/-! ## Checks -/

/-- `render.ParseFormat` and `parseFormat`. -/
def parseFormat (s : String) (allowJSON : Bool) : Except Refusal Format :=
  let format : Option Format :=
    if s = "" ∨ s = "compact" then some .compact
    else if s = "json" then some .json
    else if s = "table" then some .table
    else none
  match format with
  | none =>
    .error (.error { newError t.texts .invalidArgument
        ("format " ++ t.texts.quote (t.texts.clipRunes s 32) ++
          " is not one of compact, json, table") false with
      input := [("format", .text (t.texts.clipRunes s 32))]
      hint := "Use compact unless a previous compact call lost detail you need." })
  | some f =>
    if f = .json ∧ !allowJSON then
      .error (.error { newError t.texts .invalidArgument
          ("format \"json\" is not available for this tool: it has no upstream Prometheus " ++
            "payload to pass through") false with
        input := [("format", .text "json")]
        hint := "Use compact or table." })
    else .ok f

def refuseRawUnderLimits (format : Format) (p : Principal) (points : Bool) : Except Refusal Unit :=
  if format ≠ .json then .ok ()
  else
    match p.scope with
    | none => .error .crash
    | some scope =>
      if 0 < scope.limits.maxSeries ∨ (points ∧ 0 < scope.limits.maxPoints) then
        .error (.error { newError t.texts .invalidArgument
            ("format \"json\" is not available to this key: its scope caps the result size " ++
              "and the raw Prometheus payload cannot be capped without re-encoding it") false
          with
          input := [("format", .text "json")]
          hint := "Use compact or table; both honour the cap and report what was withheld " ++
            "in truncated." })
      else .ok ()

def maxPromQLBytes : Nat := 8192

def validateExpr (q cluster : String) : Except Refusal Unit :=
  if q = "" then
    .error (.error { newError t.texts .invalidArgument "query is required" false with
      input := [("cluster", .text cluster)]
      hint := "Call search_metrics to find a metric name, then query it." })
  else if maxPromQLBytes < q.utf8ByteSize then
    .error (.error { newError t.texts .invalidArgument
        ("query is " ++ toString q.utf8ByteSize ++ " bytes, above the " ++
          toString maxPromQLBytes ++ " byte limit") false with
      input := [("cluster", .text cluster)] })
  else .ok ()

/-- `effectiveTimeout`: the ceiling is `MaxQueryTimeout`. -/
def effectiveTimeout (want fallback : Int) : Int :=
  min (if want ≤ 0 then fallback else want) (120 * second)

variable (p : Principal)

/-- `resolveCluster`, as a step of a tool. -/
def clusterArg (id : String) : Except Refusal Cluster :=
  (resolveCluster t.texts t.fleet p id).mapError .error

/-- The limits of the scope; a credential without a scope is a nil pointer. -/
def limitsOf : Except Refusal fleet.Limits :=
  match p.scope with
  | none => .error .crash
  | some scope => .ok scope.limits

/-- A bound that the scope may lower. -/
def lowered (bound limit : Int) : Int := if 0 < limit then min bound limit else bound

/-! ## One cluster -/

variable (clock : Clock)

/-- `query`, up to the call that it hands to `fetch`. -/
def query (arg : QueryIn) : Except Refusal Call := do
  let c ← t.clusterArg p arg.cluster
  let format ← t.parseFormat arg.format true
  t.refuseRawUnderLimits format p false
  t.validateExpr arg.query arg.cluster
  let parsed ← t.timeArg "time" arg.time arg.cluster clock.now
  let instant := if parsed = 0 then clock.now else parsed
  t.checkLookback p instant clock.later
    [("cluster", .text arg.cluster), ("query", .text (t.texts.clipRunes arg.query 512)),
      ("time", .text arg.time)]
  let timeout ← t.durationArg "timeout" arg.timeout arg.cluster
  let timeout := effectiveTimeout timeout (30 * second)
  return {
    clusterID := c.id
    endpoint := .query
    form := [("query", .text arg.query), ("time", formatUpstreamTime instant),
      ("timeout", .text (formatDuration timeout))]
    timeout := timeout }

/-- The reading of the scrape interval of a cluster; zero if it is not a duration. -/
def scrapeOf (c : Cluster) : Int := (parsePromDuration t.lib (t.scrapeInterval c.id)).getD 0

/-- `queryRange`, up to the call that it hands to `fetch`. -/
def queryRange (arg : QueryRangeIn) :
    Except Refusal (RangePlan × Call) := do
  let c ← t.clusterArg p arg.cluster
  let format ← t.parseFormat arg.format true
  t.refuseRawUnderLimits format p true
  t.validateExpr arg.query arg.cluster
  let (start, finish) ← t.resolveRange p arg.start arg.finish clock.now
    [("cluster", .text arg.cluster), ("query", .text (t.texts.clipRunes arg.query 512)),
      ("start", .text arg.start), ("end", .text arg.finish), ("step", .text arg.step)]
  let userStep ← t.durationArg "step" arg.step arg.cluster
  let timeout ← t.durationArg "timeout" arg.timeout arg.cluster
  let timeout := effectiveTimeout timeout (60 * second)
  let limits ← limitsOf p
  let maxPoints := lowered (clampInt arg.maxPoints defaultMaxPoints 10 500) limits.maxPoints
  let (step, down) := selectStep ⟨start, finish, userStep, t.scrapeOf c, maxPoints⟩
  let call : Call :=
    { clusterID := c.id
      endpoint := .queryRange
      form := [("query", .text arg.query), ("start", formatUpstreamTime start),
        ("end", formatUpstreamTime finish), ("step", .text (formatDuration step)),
        ("timeout", .text (formatDuration timeout))]
      timeout := timeout }
  return (⟨⟨[c], userStep, maxPoints, start, finish⟩, start, step, down⟩, call)

/-! ## Many clusters -/

def unreachable (name : String) : ClusterFailure :=
  { cluster := t.texts.clipRunes name 128
    code := .unknownCluster
    message := "no such cluster is reachable by this credential"
    retryable := false }

/-- The failure of a cluster above the bound. -/
def notQueried (maxClusters : Int) (c : Cluster) : ClusterFailure :=
  { cluster := c.id
    code := .invalidArgument
    message := "not queried: maxClusters is " ++ toString maxClusters
    retryable := false }

/-- The map `byID` of `selectClusters`. -/
def byID (visible : List Cluster) : StrMap Cluster :=
  visible.foldl (fun m c => m.insert c.id c) ∅

variable (arg : FanoutQueryIn)

/-- The switch of `selectClusters`. -/
def selected (maxClusters : Int) :
    Except Refusal (List Cluster × List ClusterFailure) :=
  let visible := t.fleet.visible p
  let names := dedupe arg.clusters
  if arg.clusters ≠ [] then
    .ok (names.filterMap (byID visible).lookup,
      (names.filter fun name => ((byID visible).lookup name).isNone).map t.unreachable)
  else if arg.labelSelector ≠ ∅ then
    .ok (visible.filter fun c => matchesSelector c.labels arg.labelSelector, [])
  else if maxClusters < visible.length then
    .error (.error { newError t.texts .noSelectorTooBroad
        ("no clusters or labelSelector was given and the fleet has " ++
          toString visible.length ++ " clusters, above maxClusters " ++
          toString maxClusters) false with
      input := [("query", .text (t.texts.clipRunes arg.query 512)),
        ("maxClusters", .number maxClusters)]
      hint := "Add labelSelector (for example \x7b\"env\":\"prod\"\x7d) or an explicit " ++
        "clusters list. An untargeted fan-out across the whole fleet should be " ++
        "deliberate, not accidental." })
  else .ok (visible, [])

/-- `selectClusters`: the targets, and the failures that are known without a call. -/
def selectClusters (maxClusters : Int) :
    Except Refusal (List Cluster × List ClusterFailure) := do
  let (targets, failures) ← t.selected p arg maxClusters
  if targets = [] then
    .error (.error { newError t.texts .noClustersMatched
        "no cluster matched the selection" false with
      input := [("clusters", .texts (arg.clusters.map fun s => t.texts.clipRunes s 128)),
        ("labelSelector", .labels arg.labelSelector)]
      hint := "Call list_clusters to see the clusters this credential can reach and " ++
        "the labels they carry."
      didYouMean := match arg.clusters with
        | [] => []
        | name :: _ => didYouMean t.texts t.fleet p name })
  else
    let sorted := targets.insertionSort fun a b => a.id ≤ b.id
    .ok (sorted.take maxClusters.toNat,
      failures ++ (sorted.drop maxClusters.toNat).map (notQueried maxClusters))

def commonStep (targets : List Cluster) (start finish userStep maxPoints : Int) :
    Int × Downsampled :=
  let best := targets.foldl (fun best c =>
    let r := selectStep ⟨start, finish, userStep, t.scrapeOf c, maxPoints⟩
    if best.1 < r.1 then r else best) (0, ⟨"", "", ""⟩)
  let reason := if 1 < targets.length then
      best.2.reason ++ "; common step across " ++ toString targets.length ++ " clusters"
    else best.2.reason
  (best.1, { best.2 with appliedStep := formatDuration best.1, reason := reason })

def fanoutEcho : List (String × Arg) :=
  [("query", .text (t.texts.clipRunes arg.query 512)), ("start", .text arg.start),
    ("end", .text arg.finish), ("step", .text arg.step)]

/-- The part of `fanoutQuery` that decides the window and the step of a range. -/
def fanoutRange (targets : List Cluster) :
    Except Refusal RangePlan := do
  let (checked, finish) ← t.resolveRange p arg.start arg.finish clock.now (t.fanoutEcho arg)
  let userStep ← t.durationArg "step" arg.step ""
  let limits ← limitsOf p
  let maxPoints := lowered defaultMaxPoints limits.maxPoints
  let (step, down) := t.commonStep targets checked finish userStep maxPoints
  let aligned ← alignUp t.lib checked step
  let start := if finish < aligned then finish else aligned
  return ⟨⟨targets, userStep, maxPoints, checked, finish⟩, start, step, down⟩

def parseMode (s : String) : Except Refusal FanoutMode :=
  let mode := if s = "" then "instant" else s
  if mode = "instant" then .ok .instant
  else if mode = "range" then .ok .range
  else
    .error (.error { newError t.texts .invalidArgument
        ("mode " ++ t.texts.quote (t.texts.clipRunes mode 32) ++
          " is not one of instant, range") false with
      input := [("mode", .text (t.texts.clipRunes mode 32))] })

/-- The check of the failure policy: whether a partial answer is refused. -/
def parseOnError (s : String) : Except Refusal Bool :=
  let onError := if s = "" then "partial" else s
  if onError = "partial" then .ok false
  else if onError = "fail" then .ok true
  else
    .error (.error { newError t.texts .invalidArgument
        ("onError " ++ t.texts.quote (t.texts.clipRunes onError 32) ++
          " is not one of partial, fail") false with
      input := [("onError", .text (t.texts.clipRunes onError 32))] })

def checkPromQL (q : String) : Except Refusal Unit :=
  let a := t.analyzePromQL q
  if a.valid then .ok ()
  else
    .error (.error { newError t.texts .promQLParse a.message false with
      input := [("query", .text (t.texts.clipRunes q 1024))]
      hint := "The expression was rejected at the hub before any cluster was contacted. " ++
        "Call explain_promql to see the full analysis."
      caret := if 0 < a.position then
          String.ofList (List.replicate (min a.position (q.utf8ByteSize + 1) - 1) ' ') ++ "^"
        else "" })

/-- The part of `fanoutQuery` that builds the form. -/
def fanoutForm (targets : List Cluster) :
    FanoutMode → Except Refusal (Option RangePlan × List (String × FormValue))
  | .instant => do
    let parsed ← t.timeArg "time" arg.time "" clock.now
    let instant := if parsed = 0 then clock.now else parsed
    t.checkLookback p instant clock.later
      [("query", .text (t.texts.clipRunes arg.query 512)), ("time", .text arg.time)]
    return (none, [("query", .text arg.query), ("time", formatUpstreamTime instant)])
  | .range => do
    let plan ← t.fanoutRange p clock arg targets
    return (some plan, [("query", .text arg.query), ("start", formatUpstreamTime plan.start),
      ("end", formatUpstreamTime plan.finish),
      ("step", .text (formatDuration plan.step))])

/-- `fanoutQuery`, up to its dispatch. -/
def fanoutQuery :
    Except Refusal FanoutPlan := do
  let mode ← t.parseMode arg.mode
  let failOnError ← t.parseOnError arg.onError
  t.validateExpr arg.query ""
  t.checkPromQL arg.query
  let (targets, failures) ← t.selectClusters p arg (clampInt arg.maxClusters 25 1 100)
  let deadline ← t.durationArg "deadline" arg.deadline ""
  let deadline := min (if deadline ≤ 0 then 60 * second else deadline) (300 * second)
  let (ranged, form) ← t.fanoutForm p clock arg targets mode
  let limits ← limitsOf p
  return {
    mode := mode
    ranged := ranged
    failOnError := failOnError
    targets := targets
    failures := failures
    concurrency := clampInt arg.concurrency t.fanoutConcurrency 1 32
    deadline := deadline
    form := form
    perCluster := max (deadline.tdiv 2) second
    maxSeries := lowered (clampInt arg.maxSeriesPerCluster 5 1 50) limits.maxSeries }

end Tools

/-- The call that `queryOne` makes for a target. -/
def FanoutPlan.call (plan : FanoutPlan) (c : Cluster) : Call :=
  { clusterID := c.id
    endpoint := match plan.mode with
      | .instant => .query
      | .range => .queryRange
    form := plan.form
    timeout := plan.perCluster }

end prom_fleet.mcptools
