-- A fan-out after its checks: the workers that ask the clusters, the encoding of each
-- answer, the merge of the rows, and the account of which clusters answered.
import Mathlib.Algebra.GroupWithZero.Nat
import PromFleet.PointBudget
import PromFleet.Truncate
import PromFleet.WorkerPool

namespace prom_fleet.mcptools

open fleet render worker_pool

/-! ## Answers -/

/-- How a body fails to decode. -/
inductive DecodeError where
  | nativeHistogram
  | other (text : String)
  deriving DecidableEq

/-- The data of an answer, by its result type: `V` are the samples of a vector, `M` the
series of a matrix. -/
inductive Payload (V M : Type) where
  | matrix (m : Except DecodeError (List M))
  | scalar (pt : Except DecodeError V)
  | string
  | vector (v : Except DecodeError (List V))

/-- What `fetch` gives for a cluster: an error, or the data and the warnings. -/
abbrev Answer (V M : Type) := Except ToolError (Except DecodeError (Payload V M) × List String)

/-- How samples become rows. The rows of a result are made from the samples that are kept,
in their order. -/
structure Renderer (S R : Type) where
  /-- The ranking of the samples. -/
  rank : List S → List S
  rank_perm : ∀ l, (rank l).Perm l
  /-- The row of a sample among those that are kept. -/
  row : List S → S → R
  /-- `injectCluster` on a row: the new row, and a warning if it had a cluster label. -/
  inject : String → R → R × Option String
  /-- The estimate of the tokens of the merged rows. -/
  tokens : List (String × R) → Int

/-- What is read of `render.InstantResult` and of `render.RangeResult`. -/
structure Encoded (R : Type) where
  rows : List R
  total : Nat
  warnings : List String

def Encoded.zero {R : Type} : Encoded R := ⟨[], 0, []⟩

/-- `fanoutResult`: `X` are the rows of an instant, `Y` the series of a range. -/
structure FanoutResult (X Y : Type) where
  cluster : String
  instant : Encoded X
  rangeResult : Encoded Y
  err : Option ToolError
  timedOut : Bool

section Encoding

variable {S R : Type}

/-- `sanitizeAll`: the bound is `MaxAnnotationRunes`. -/
def sanitizeAll (T : Texts) (warnings : List String) : List String :=
  (warnings.map fun s => T.clipRunes s 500).filter fun s => decide (s ≠ "")

/-- `EncodeInstant` and `EncodeRange` without a token ceiling: the best `limit` samples. -/
def encode (T : Texts) (r : Renderer S R) (limit : Int) (samples : List S)
    (warnings : List String) : Encoded R :=
  let kept := (truncateItems (r.rank samples) limit "").1
  ⟨kept.map (r.row kept), samples.length, sanitizeAll T warnings⟩

def malformed (T : Texts) (cluster : String) : DecodeError → ToolError
  | .nativeHistogram =>
    { newError T .invalidArgument ("cluster " ++ T.quote cluster ++
        " returned native histograms, which compact output cannot represent") false with
      input := [("cluster", .text cluster)]
      hint := "Use histogram_sum(...) or histogram_count(...) to return float samples, " ++
        "or call query/query_range with format \"json\" if your scope allows raw output." }
  | .other text =>
    { newError T .malformedUpstream ("cluster " ++ T.quote cluster ++
        " returned a payload this hub could not read: " ++ text) false with
      input := [("cluster", .text cluster)] }

end Encoding

section Query

variable {V M X Y : Type} (T : Texts) (instant : Renderer V X) (range : Renderer M Y)

def FanoutResult.failed (cluster : String) (e : ToolError) (timedOut : Bool) : FanoutResult X Y :=
  ⟨cluster, .zero, .zero, some e, timedOut⟩

/-- The end of `queryOne`: the encoding for the endpoint. -/
def encodeOne (plan : FanoutPlan) (c : Cluster) (vector : List V) (matrix : List M)
    (warnings : List String) : FanoutResult X Y :=
  match plan.mode with
  | .range => ⟨c.id, .zero, encode T range plan.maxSeries matrix warnings, none, false⟩
  | .instant => ⟨c.id, encode T instant plan.maxSeries vector warnings, .zero, none, false⟩

/-- `queryOne`, with what `fetch` gives for the cluster. -/
def queryOne (plan : FanoutPlan) (c : Cluster) : Answer V M → FanoutResult X Y
  | .error e =>
    .failed c.id e (decide (e.code = .queryTimeout ∨ e.code = .canceled))
  | .ok (.error e, _) => .failed c.id (malformed T c.id e) false
  | .ok (.ok (.matrix m), warnings) =>
    if plan.mode = .instant then
      .failed c.id { newError T .invalidArgument
          "that expression returns a range vector; use mode \"range\" instead" false with
        hint := "Re-run with mode \"range\", or wrap the expression in a function " ++
          "such as rate(...) to get an instant vector." } false
    else
      match m with
      | .error e => .failed c.id (malformed T c.id e) false
      | .ok matrix => encodeOne T instant range plan c [] matrix warnings
  | .ok (.ok (.scalar pt), warnings) =>
    match pt with
    | .error e => .failed c.id (malformed T c.id e) false
    | .ok sample => encodeOne T instant range plan c [sample] [] warnings
  | .ok (.ok .string, _) =>
    .failed c.id { newError T .invalidArgument
        "that expression returns a string, which has no fleet-wide merge" false with
      hint := "Use query against one cluster for string-valued expressions." } false
  | .ok (.ok (.vector v), warnings) =>
    match v with
    | .error e => .failed c.id (malformed T c.id e) false
    | .ok vector => encodeOne T instant range plan c vector [] warnings

/-- `dispatch`: the pool of workers that asks the targets. A target that no worker took is
filed as timed out. -/
def dispatch (plan : FanoutPlan) : Pool Cluster (Answer V M) (FanoutResult X Y) where
  jobs := plan.targets
  workers := (min plan.concurrency plan.targets.length).toNat
  work := queryOne T instant range plan
  late c := ⟨c.id, .zero, .zero, none, true⟩

end Query

/-! ## The merge -/

/-- The rows of a merged result, each with its cluster. -/
structure Merged (R : Type) where
  rows : List (String × R)
  total : Nat
  truncated : Option Truncation
  warnings : List String

def Merged.zero {R : Type} : Merged R := ⟨[], 0, none, []⟩

section Merge

variable {S R Q : Type}

variable (r : Renderer S R)

/-- The rows that one result adds. -/
def mergeRows (err : Option ToolError) (cluster : String) (e : Encoded R) :
    List (String × R) :=
  if err.isSome then [] else e.rows.map fun row => (cluster, (r.inject cluster row).1)

/-- The warnings that one result adds: of the labels, and the cluster's own. -/
def mergeWarnings (err : Option ToolError) (cluster : String)
    (e : Encoded R) : List String :=
  if err.isSome then []
  else (e.rows.filterMap fun row => (r.inject cluster row).2) ++
    e.warnings.map fun w => cluster ++ ": " ++ w

/-- `mergeInstant` and `mergeRange`, with the two hints that differ. -/
def merge (ceiling maxSeries : Int) (ceilingHint seriesHint : String)
    (pick : Q → Option ToolError × String × Encoded R) (results : List Q) : Merged R :=
  let parts := results.map pick
  let rows := parts.flatMap fun x => mergeRows r x.1 x.2.1 x.2.2
  let total := (parts.map fun x => if x.1.isSome then 0 else x.2.2.total).sum
  let (fitted, hit) := fitTokens r.tokens ceiling rows
  { rows := fitted
    total := total
    truncated :=
      if hit then
        some { escalate none fitted.length .tokenCeiling ceilingHint with total := total }
      else if rows.length < total then
        some ⟨rows.length, total, .maxSeries, seriesHint, selectionTopNByMax maxSeries⟩
      else none
    warnings := dedupe (parts.flatMap fun x => mergeWarnings r x.1 x.2.1 x.2.2) }

end Merge

/-! ## The account -/

structure Coverage where
  requested : Nat
  ok : Nat
  failed : Nat
  timedOut : Nat
  complete : Bool
  deriving DecidableEq

structure PerCluster where
  ok : List String
  failed : List ClusterFailure
  timedOut : List String
  deriving DecidableEq

/-- One result in the account. -/
inductive Verdict where
  | ok
  | failed (f : ClusterFailure)
  | timedOut

/-- The switch of `accountCoverage`. -/
def verdict (T : Texts) (cluster : String) (err : Option ToolError) (timedOut : Bool) : Verdict :=
  if timedOut then .timedOut
  else
    match err with
    | some e => .failed ⟨cluster, e.code, T.clipRunes e.message 200, e.retryable⟩
    | none => .ok

/-- `FanoutQueryOut`, without the fields that echo the window. -/
structure FanoutOut (X Y : Type) where
  mode : FanoutMode
  preamble : String
  coverage : Coverage
  perCluster : PerCluster
  instant : Merged X
  range : Merged Y

section Account

variable (T : Texts)

def named (verdicts : List (String × Verdict)) (kind : Verdict → Bool) : List String :=
  (verdicts.filter fun x => kind x.2).map Prod.fst

def Verdict.isOk : Verdict → Bool
  | .ok => true
  | _ => false

def Verdict.isTimedOut : Verdict → Bool
  | .timedOut => true
  | _ => false

def Verdict.failure? : Verdict → Option ClusterFailure
  | .failed f => some f
  | _ => none

/-- `accountCoverage`: the coverage and the clusters of each kind. Failures under one name
keep their order here; the source may swap them. -/
def accountCoverage (targets preFailures : Nat) (verdicts : List (String × Verdict)) :
    Coverage × PerCluster :=
  let ok := named verdicts Verdict.isOk
  let failed := verdicts.filterMap fun x => x.2.failure?
  let timedOut := named verdicts Verdict.isTimedOut
  let requested := targets + preFailures
  (⟨requested, ok.length, failed.length, timedOut.length,
      decide (ok.length = requested ∧ 0 < requested)⟩,
    ⟨ok.insertionSort (· ≤ ·), failed.insertionSort fun a b => a.cluster ≤ b.cluster,
      timedOut.insertionSort (· ≤ ·)⟩)

def preambleOf (cov : Coverage) : String :=
  if cov.complete then "Complete result: all " ++ toString cov.ok ++ " clusters answered."
  else "Partial result: " ++ toString cov.ok ++ " of " ++ toString cov.requested ++
    " clusters. Conclusions may be incomplete; " ++ toString cov.failed ++ " failed and " ++
    toString cov.timedOut ++ " timed out. Do not report a fleet-wide minimum, maximum or " ++
    "ranking as complete without saying which clusters are missing."

end Account

section Report

variable {V M X Y : Type} (t : Tools) (instant : Renderer V X) (range : Renderer M Y)

/-- The verdicts on the results of the workers and on the failures known before. -/
def verdicts (plan : FanoutPlan) (results : List (FanoutResult X Y)) : List (String × Verdict) :=
  (results.map fun r => (r.cluster, verdict t.texts r.cluster r.err r.timedOut)) ++
    plan.failures.map fun f => (f.cluster, verdict t.texts f.cluster
      (some ⟨f.code, f.message, [], "", false, [], "", []⟩) false)

/-- The result that `fanoutQuery` builds from the results of its workers. -/
def report (plan : FanoutPlan) (results : List (FanoutResult X Y)) : FanoutOut X Y :=
  let (cov, pc) := accountCoverage plan.targets.length plan.failures.length
    (verdicts t plan results)
  let capped := "The hub caps a result at about " ++ toString t.tokenCeiling ++
    " estimated tokens regardless of limit. "
  let most := "Each cluster contributed at most " ++ toString plan.maxSeries ++ " series. "
  { mode := plan.mode
    preamble := preambleOf cov
    coverage := cov
    perCluster := pc
    instant := match plan.mode with
      | .instant => merge instant t.tokenCeiling plan.maxSeries
          (capped ++ "Aggregate the expression, or lower maxClusters.")
          (most ++ "Aggregate in the expression, for example sum by(job) (...), rather than " ++
            "raising maxSeriesPerCluster.")
          (fun r : FanoutResult X Y => (r.err, r.cluster, r.instant)) results
      | .range => .zero
    range := match plan.mode with
      | .instant => .zero
      | .range => merge range t.tokenCeiling plan.maxSeries
          (capped ++ "Shorten the range, aggregate, or lower maxClusters.")
          (most ++ "Aggregate in the expression rather than raising maxSeriesPerCluster.")
          (fun r : FanoutResult X Y => (r.err, r.cluster, r.rangeResult)) results }

end Report

end prom_fleet.mcptools
