-- The time arguments of the tools: how a text becomes an instant or a duration, how a
-- window is checked against the lookback limit, and what a request carries to a cluster.
import PromFleet.RenderStep
import PromFleet.ToolGuard

namespace prom_fleet.mcptools

open fleet gotime render

/-! ## The tools -/

/-- What `analyzePromQL` reports of an expression. -/
structure Analysis where
  valid : Bool
  message : String
  position : Nat

/-- `Tools` as `New` builds it, with what its functions read. -/
structure Tools where
  texts : Texts
  lib : GoLib
  fleet : Fleet
  /-- `c.Prometheus.ScrapeInterval`, a text that the spoke of the cluster reports. -/
  scrapeInterval : String → String
  analyzePromQL : String → Analysis
  tokenCeiling : Int
  maxLookback : Int
  fanoutConcurrency : Int
  maxLookback_pos : 0 < maxLookback
  maxLookback_le : maxLookback ≤ maxDuration
  fanoutConcurrency_pos : 1 ≤ fanoutConcurrency
  fanoutConcurrency_le : fanoutConcurrency ≤ 32

/-- The two readings of the clock that one call takes. -/
structure Clock where
  now : Int
  later : Int
  now_le : now ≤ later

/-- How a call ends without a request: with an error, or in a panic of the program. -/
inductive Refusal where
  | error (e : ToolError)
  | crash
  deriving DecidableEq

/-! ## Arguments -/

/-- `corrected[k] = v`. -/
def setArg (args : List (String × Arg)) (k : String) (v : Arg) : List (String × Arg) :=
  args.filter (fun x => x.1 ≠ k) ++ [(k, v)]

/-- `str(echo[k])`. -/
def strArg (args : List (String × Arg)) (k : String) : String :=
  match args.find? fun x => x.1 = k with
  | some (_, .text s) => s
  | _ => ""

def clampInt (n fallback lo hi : Int) : Int :=
  min (max (if n ≤ 0 then fallback else n) lo) hi

namespace Tools

variable (t : Tools)

/-- `parseRelative`; no value for a text that is not a relative form. -/
def parseRelative (s : String) (now : Int) : Option (Except String Int) :=
  let signed (body : List Char) : Except String Int :=
    let offset (negative : Bool) (body : List Char) : Except String Int :=
      match parsePromDuration t.lib (trimSpace (String.ofList body)) with
      | none => .error (t.texts.quote s ++ " is not a time: " ++
          t.texts.quote (String.ofList body) ++
          " is not a duration such as \"6h\", \"15m\" or \"1d\"")
      | some d => .ok (timeAdd now (if negative then wrap64 (-d) else d))
    match body with
    | '-' :: body => offset true body
    | '+' :: body => offset false body
    | _ => .error (t.texts.quote s ++
        " is not a time: a relative time needs a sign, as in \"now-6h\"")
  match s.toList with
  | ['n', 'o', 'w'] => some (.ok now)
  | 'n' :: 'o' :: 'w' :: rest =>
    let body := trimSpace (String.ofList rest)
    if body = "" then some (.ok now) else some (signed body.toList)
  | '-' :: rest => some (signed ('-' :: rest))
  | '+' :: rest => some (signed ('+' :: rest))
  | _ => none

/-- `ParseTime`. The empty text is the zero time. -/
def parseTime (s : String) (now : Int) : Except String Int :=
  let s := trimSpace s
  if s = "" then .ok 0
  else
    match t.parseRelative s now with
    | some r => r
    | none =>
      match [Layout.rfc3339Nano, Layout.rfc3339].findSome? fun layout =>
          t.lib.timeParse layout s with
      | some at' => .ok at'
      | none =>
        match t.lib.parseFloat s with
        | some f => .ok (timeUnix f.seconds f.nanos)
        | none => .error (t.texts.quote s ++
            " is not a time: use a relative form such as \"now-6h\" or \"-15m\", " ++
            "an RFC 3339 timestamp such as \"2026-08-29T12:00:00Z\", or a Unix timestamp")

def parseDuration (s : String) : Except String Int :=
  let s := trimSpace s
  if s = "" then .ok 0
  else
    match parsePromDuration t.lib s with
    | none => .error (t.texts.quote s ++
        " is not a duration such as \"30s\", \"5m\" or \"1d\"")
    | some d =>
      if d ≤ 0 then .error ("duration " ++ t.texts.quote s ++ " must be positive") else .ok d

def invalidTime (field value cluster err : String) : ToolError :=
  { newError t.texts .invalidTime err false with
    input := [("cluster", .text cluster), (field, .text (t.texts.clipRunes value 128))]
    hint := "Relative times are the reliable form: \"now-6h\", \"-15m\", \"now\". " ++
      "Durations use the Prometheus grammar: \"30s\", \"5m\", \"1h30m\", \"1d\"." }

/-- A time argument that must parse. -/
def timeArg (field value cluster : String) (now : Int) : Except Refusal Int :=
  (t.parseTime value now).mapError fun err => .error (t.invalidTime field value cluster err)

/-- A duration argument that must parse. -/
def durationArg (field value cluster : String) : Except Refusal Int :=
  (t.parseDuration value).mapError fun err => .error (t.invalidTime field value cluster err)

/-! ## The lookback limit -/

variable (p : Principal)

def lookbackLimit : Int :=
  match p.scope with
  | none => t.maxLookback
  | some scope =>
    if 0 < scope.limits.maxLookback then min t.maxLookback scope.limits.maxLookback
    else t.maxLookback

/-- `age.Truncate(time.Minute)`, printed. -/
def minutesText (d : Int) : String := durationString (d - d.tmod minute)

/-- `checkLookback`, with the reading of the clock that it takes. -/
def checkLookback (instant later : Int) (echo : List (String × Arg)) :
    Except Refusal Unit :=
  let limit := t.lookbackLimit p
  let age := timeSub later instant
  if age ≤ limit then .ok ()
  else
    .error (.error { newError t.texts .rangeTooLarge
        ("time is " ++ minutesText age ++ " in the past, beyond this hub's " ++
          formatDuration limit ++ " lookback limit") false with
      input := echo
      hint := "Use the corrected arguments."
      corrected := setArg echo "time" (.text ("now-" ++ formatDuration limit)) })

def defaultRangeSpan : Int := hour

/-- The checks of `resolveRange` on a window. -/
def checkRange (start finish now : Int) (echo : List (String × Arg)) :
    Except Refusal (Int × Int) :=
  let limit := t.lookbackLimit p
  let oldest := Arg.text ("now-" ++ formatDuration limit)
  let span := timeSub finish start
  let age := timeSub now start
  if finish ≤ start then
    .error (.error { newError t.texts .invalidArgument "end must be after start" false with
      input := echo
      hint := "Relative times are the reliable form: start \"now-6h\", end \"now\"." })
  else if limit < span then
    .error (.error { newError t.texts .rangeTooLarge
        ("the requested range spans " ++ minutesText span ++ ", above this hub's " ++
          formatDuration limit ++ " limit") false with
      input := echo
      hint := "Use the corrected arguments, or query a narrower window and repeat."
      corrected := setArg (setArg echo "start" oldest) "end" (.text "now") })
  else if limit < age then
    .error (.error { newError t.texts .rangeTooLarge
        ("start is " ++ minutesText age ++ " in the past, beyond this hub's " ++
          formatDuration limit ++ " lookback limit") false with
      input := echo
      hint := "Use the corrected arguments. Data older than the cluster's retention " ++
        "does not exist regardless of the limit; check retention with describe_cluster."
      corrected := setArg echo "start" oldest })
  else .ok (start, finish)

/-- `resolveRange`: the start and the end of the window. -/
def resolveRange (startArg endArg : String) (now : Int)
    (echo : List (String × Arg)) : Except Refusal (Int × Int) := do
  let parsed ← t.timeArg "end" endArg (strArg echo "cluster") now
  let finish := if parsed = 0 then now else parsed
  let parsed ← t.timeArg "start" startArg (strArg echo "cluster") now
  let start := if parsed = 0 then timeAdd finish (-defaultRangeSpan) else parsed
  t.checkRange p start finish now echo

end Tools

/-! ## Requests to a cluster -/

inductive FormValue where
  | text (s : String)
  /-- An instant, printed in Unix seconds. -/
  | time (t : Int)
  deriving DecidableEq

def formatUpstreamTime (t : Int) : FormValue := .time t

/-- The number of nanoseconds that `formatUpstreamTime` converts to a float and prints. -/
def FormValue.nanos : FormValue → Option Int
  | .text _ => none
  | .time t => some (unixNano t)

inductive Endpoint where
  | query
  | queryRange
  deriving DecidableEq

structure Call where
  clusterID : String
  endpoint : Endpoint
  form : List (String × FormValue)
  timeout : Int
  deriving DecidableEq

/-- The instants of a form. -/
def timesOf (form : List (String × FormValue)) : List Int :=
  form.filterMap fun x => match x.2 with
    | .time t => some t
    | .text _ => none

/-- The instants that a request carries. -/
def Call.times (c : Call) : List Int := timesOf c.form

variable {form : List (String × FormValue)}

theorem time_mem_timesOf {x : String × FormValue} {n : Int}
    (hx : x ∈ form) (hn : x.2.nanos = some n) : ∃ t ∈ timesOf form, unixNano t = n := by
  obtain ⟨key, value⟩ := x
  cases value with
  | text s => cases hn
  | time t => exact ⟨t, List.mem_filterMap.mpr ⟨_, hx, rfl⟩, Option.some.inj hn⟩

theorem mem_timesOf {t : Int} (h : t ∈ timesOf form) :
    ∃ x ∈ form, x.2.nanos = some (unixNano t) := by
  obtain ⟨⟨key, value⟩, hx, ht⟩ := List.mem_filterMap.mp h
  cases value with
  | text s => cases ht
  | time u => exact ⟨_, hx, congrArg (some ∘ unixNano) (Option.some.inj ht)⟩

end prom_fleet.mcptools
