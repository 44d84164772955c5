-- The allow-list of the Prometheus API: the routes, the path of an endpoint, the check of a
-- form against the parameters of a route, and the reading of a path back to its route. The
-- hub builds its requests with it, and the spoke checks them with it again.
import PromFleet.Identity
import PromFleet.MapRange
import PromFleet.RenderStep

namespace prom_fleet.promapi

open map_range render

/-! ## Routes -/

/-- `Endpoint`. The source has a string type: `other` is a string that names no endpoint. -/
inductive Endpoint where
  | query
  | queryRange
  | queryExemplars
  | series
  | labels
  | labelValues
  | metadata
  | targets
  | targetsMetadata
  | rules
  | alerts
  | alertmanagers
  | tsdbStatus
  | runtimeInfo
  | buildInfo
  | flags
  | config
  | other (name : String)
  deriving DecidableEq, Repr

def Endpoint.text : Endpoint → String
  | .query => "query"
  | .queryRange => "query_range"
  | .queryExemplars => "query_exemplars"
  | .series => "series"
  | .labels => "labels"
  | .labelValues => "label_values"
  | .metadata => "metadata"
  | .targets => "targets"
  | .targetsMetadata => "targets_metadata"
  | .rules => "rules"
  | .alerts => "alerts"
  | .alertmanagers => "alertmanagers"
  | .tsdbStatus => "tsdb_status"
  | .runtimeInfo => "runtime_info"
  | .buildInfo => "build_info"
  | .flags => "flags"
  | .config => "config"
  | .other name => name

inductive ParamKind where
  | promQL
  | time
  | duration
  | matcher
  | labelName
  | metricName
  | int
  | enum
  deriving DecidableEq, Repr

structure Param where
  name : String
  kind : ParamKind
  required : Bool := false
  repeated : Bool := false
  enum : List String := []
  deriving DecidableEq, Repr

/-- `Route`, without its summary, which only the documentation reads. -/
structure Route where
  endpoint : Endpoint
  method : String
  pathTemplate : String
  params : List Param := []
  gated : Bool := false
  deriving DecidableEq, Repr

/-- The placeholder of a path template. -/
def placeholder : List Char := ['\x7b', 'l', 'a', 'b', 'e', 'l', '\x7d']

def Route.hasPathParam (r : Route) : Bool := decide (placeholder <:+: r.pathTemplate.toList)

def commonSelectorParams : List Param :=
  [{ name := "match[]", kind := .matcher, repeated := true },
    { name := "start", kind := .time },
    { name := "end", kind := .time },
    { name := "limit", kind := .int }]

def routes : List Route :=
  [{ endpoint := .query, method := "POST", pathTemplate := "/api/v1/query"
     params := [{ name := "query", kind := .promQL, required := true },
      { name := "time", kind := .time },
      { name := "timeout", kind := .duration },
      { name := "limit", kind := .int }] },
   { endpoint := .queryRange, method := "POST", pathTemplate := "/api/v1/query_range"
     params := [{ name := "query", kind := .promQL, required := true },
      { name := "start", kind := .time, required := true },
      { name := "end", kind := .time, required := true },
      { name := "step", kind := .duration, required := true },
      { name := "timeout", kind := .duration },
      { name := "limit", kind := .int }] },
   { endpoint := .queryExemplars, method := "POST", pathTemplate := "/api/v1/query_exemplars"
     params := [{ name := "query", kind := .promQL, required := true },
      { name := "start", kind := .time, required := true },
      { name := "end", kind := .time, required := true }] },
   { endpoint := .series, method := "POST", pathTemplate := "/api/v1/series"
     params := [{ name := "match[]", kind := .matcher, required := true, repeated := true },
      { name := "start", kind := .time },
      { name := "end", kind := .time },
      { name := "limit", kind := .int }] },
   { endpoint := .labels, method := "POST", pathTemplate := "/api/v1/labels"
     params := commonSelectorParams },
   { endpoint := .labelValues, method := "GET"
     pathTemplate := "/api/v1/label/\x7blabel\x7d/values"
     params := commonSelectorParams },
   { endpoint := .metadata, method := "GET", pathTemplate := "/api/v1/metadata"
     params := [{ name := "metric", kind := .metricName },
      { name := "limit", kind := .int },
      { name := "limit_per_metric", kind := .int }] },
   { endpoint := .targets, method := "GET", pathTemplate := "/api/v1/targets"
     params := [{ name := "state", kind := .enum, enum := ["active", "dropped", "any"] },
      { name := "scrapePool", kind := .labelName }] },
   { endpoint := .targetsMetadata, method := "GET", pathTemplate := "/api/v1/targets/metadata"
     params := [{ name := "match_target", kind := .matcher },
      { name := "metric", kind := .metricName },
      { name := "limit", kind := .int }] },
   { endpoint := .rules, method := "GET", pathTemplate := "/api/v1/rules"
     params := [{ name := "type", kind := .enum, enum := ["alert", "record"] },
      { name := "rule_name[]", kind := .metricName, repeated := true },
      { name := "rule_group[]", kind := .metricName, repeated := true },
      { name := "file[]", kind := .metricName, repeated := true },
      { name := "exclude_alerts", kind := .enum, enum := ["true", "false"] }] },
   { endpoint := .alerts, method := "GET", pathTemplate := "/api/v1/alerts" },
   { endpoint := .alertmanagers, method := "GET", pathTemplate := "/api/v1/alertmanagers" },
   { endpoint := .tsdbStatus, method := "GET", pathTemplate := "/api/v1/status/tsdb"
     params := [{ name := "limit", kind := .int }] },
   { endpoint := .runtimeInfo, method := "GET", pathTemplate := "/api/v1/status/runtimeinfo" },
   { endpoint := .buildInfo, method := "GET", pathTemplate := "/api/v1/status/buildinfo" },
   { endpoint := .flags, method := "GET", pathTemplate := "/api/v1/status/flags" },
   { endpoint := .config, method := "GET", pathTemplate := "/api/v1/status/config"
     gated := true }]

/-! ## Errors -/

/-- The errors that callers tell apart. -/
inductive Sentinel where
  | unknownEndpoint
  | endpointGated
  | invalidParam
  | invalidLabelName
  deriving DecidableEq, Repr

/-- An error: the sentinel that it wraps and what stands behind it. -/
structure Err where
  sentinel : Sentinel
  detail : String
  deriving DecidableEq, Repr

/-- The functions of Go's library that the checks use. -/
structure Lib where
  go : GoLib
  /-- The verb `%q`. -/
  quote : String → String
  /-- The number that `strconv.ParseFloat` gives is at most zero. -/
  nonPositive : String → Bool

variable (L : Lib)

/-! ## Paths -/

/-- `Get`. The keys of the map are the endpoints of its routes. -/
def get (e : Endpoint) : Except Err Route :=
  match routes.find? fun r => r.endpoint = e with
  | none => .error ⟨.unknownEndpoint, L.quote e.text⟩
  | some r => .ok r

/-- A text of one letter and then letters and digits, with more letters than usual. -/
def nameRE (letter : Char → Bool) (s : String) : Bool :=
  match s.toList with
  | [] => false
  | c :: rest => letter c && rest.all fun c => letter c || c.isDigit

variable (s : String)

def labelNameRE : Bool := nameRE (fun c => c.isAlpha || c = '_') s

def metricNameRE : Bool := nameRE (fun c => c.isAlpha || c = '_' || c = ':') s

def maxLabelNameBytes : Nat := 128

def validateLabelName (name : String) : Except Err Unit :=
  if maxLabelNameBytes < name.utf8ByteSize then
    .error ⟨.invalidLabelName, toString name.utf8ByteSize ++ " bytes, limit " ++
      toString maxLabelNameBytes⟩
  else if !labelNameRE name then .error ⟨.invalidLabelName, L.quote name⟩
  else .ok ()

/-- `strings.Cut`. -/
def cut (sep : List Char) : List Char → Option (List Char × List Char)
  | [] => if sep = [] then some ([], []) else none
  | c :: rest =>
    if sep.isPrefixOf (c :: rest) then some ([], (c :: rest).drop sep.length)
    else (cut sep rest).map fun x => (c :: x.1, x.2)

def Route.around (r : Route) : List Char × List Char :=
  (cut placeholder r.pathTemplate.toList).getD (r.pathTemplate.toList, [])

/-- `BuildPath`. A label name that is valid is its own `url.PathEscape`. -/
def buildPath (e : Endpoint) (labelName : String) : Except Err String := do
  let r ← get L e
  if !r.hasPathParam then
    if labelName ≠ "" then
      .error ⟨.invalidParam, "endpoint " ++ L.quote e.text ++ " takes no label name"⟩
    else .ok r.pathTemplate
  else
    validateLabelName L labelName
    .ok (String.ofList (r.around.1 ++ labelName.toList ++ r.around.2))

/-! ## Forms -/

/-- `url.Values`. -/
abbrev Values := StrMap (List String)

/-- `form[name]`. -/
def valuesOf (form : Values) (name : String) : List String := (form.lookup name).getD []

def maxPromQLBytes : Nat := 8192

def maxParamBytes : Nat := 2048

def maxRepeatedParams : Nat := 64

def isForbiddenRune (c : Char) : Bool :=
  c.toNat < 0x20 || (0x7f ≤ c.toNat && c.toNat ≤ 0x9f)

/-- `strings.IndexFunc`: the byte at which the first character that `f` accepts begins. -/
def indexFunc (f : Char → Bool) (s : String) : Option Nat :=
  if s.toList.any f then
    some (String.ofList (s.toList.takeWhile fun c => !f c)).utf8ByteSize
  else none

def validateTime (v : String) : Except String Unit :=
  if (L.go.timeParse .rfc3339 v).isSome || (L.go.parseFloat v).isSome then .ok ()
  else .error "must be an RFC 3339 timestamp or a Unix timestamp"

/-- Numbers and units in this order, each of them at most once. -/
def durationGroups : List (List Char) → List Char → Bool
  | [], s => s.isEmpty
  | unit :: units, s =>
    durationGroups units s ||
      (!(s.takeWhile Char.isDigit).isEmpty && unit.isPrefixOf (s.dropWhile Char.isDigit) &&
        durationGroups units ((s.dropWhile Char.isDigit).drop unit.length))

def promDurationRE : Bool :=
  durationGroups [['y'], ['w'], ['d'], ['h'], ['m'], ['s'], ['m', 's']] s.toList

def validateDuration (v : String) : Except String Unit :=
  if v = "" then .error "must not be empty"
  else
    match L.go.parseFloat v with
    | some _ => if L.nonPositive v then .error "must be positive" else .ok ()
    | none =>
      if promDurationRE v then .ok ()
      else .error "must be a duration such as \"5m\" or a number of seconds"

/-- `strconv.ParseInt` with base ten and 64 bits. -/
def parseInt : Option Int :=
  let number (digits : List Char) : Option Int :=
    if digits.isEmpty || !digits.all Char.isDigit then none
    else some (digits.foldl (fun n c => 10 * n + (c.toNat - 48 : Int)) 0)
  let n := match s.toList with
    | '-' :: digits => (number digits).map (- ·)
    | '+' :: digits => number digits
    | digits => number digits
  n.filter fun n => decide (gotime.minDuration ≤ n ∧ n ≤ gotime.maxDuration)

def validateValue (p : Param) (v : String) : Except String Unit :=
  let limit := if p.kind = .promQL then maxPromQLBytes else maxParamBytes
  if limit < v.utf8ByteSize then
    .error ("value is " ++ toString v.utf8ByteSize ++ " bytes, limit " ++ toString limit)
  else
    match indexFunc isForbiddenRune v with
    | some i => .error ("contains a control character at byte " ++ toString i)
    | none =>
      match p.kind with
      | .promQL | .matcher => if trimSpace v = "" then .error "must not be empty" else .ok ()
      | .time => validateTime L v
      | .duration => validateDuration L v
      | .labelName => if labelNameRE v then .ok () else .error "is not a valid label name"
      | .metricName =>
        if metricNameRE v then .ok () else .error "is not a valid metric or rule name"
      | .int =>
        match parseInt v with
        | none => .error "must be a non-negative integer"
        | some n => if n < 0 then .error "must be a non-negative integer" else .ok ()
      | .enum =>
        if v ∈ p.enum then .ok ()
        else .error ("must be one of " ++ ", ".intercalate p.enum)

/-- The map `byName` of `Validate`. -/
def byName (params : List Param) : StrMap Param :=
  params.foldl (fun m p => m.insert p.name p) ∅

/-- One round of the loop of `Validate`: the values of one name. -/
def validateEntry (r : Route) (name : String) (values : List String) : Except Err Unit :=
  match (byName r.params).lookup name with
  | none =>
    .error ⟨.invalidParam, L.quote name ++ " is not accepted by endpoint " ++
      L.quote r.endpoint.text⟩
  | some p =>
    if !p.repeated && 1 < values.length then
      .error ⟨.invalidParam, L.quote name ++ " may appear only once"⟩
    else if maxRepeatedParams < values.length then
      .error ⟨.invalidParam, L.quote name ++ " repeated " ++ toString values.length ++
        " times, limit " ++ toString maxRepeatedParams⟩
    else
      values.forM fun v =>
        (validateValue L p v).mapError fun err =>
          ⟨.invalidParam, L.quote name ++ ": " ++ err⟩

/-- `Validate`, with the order of its loop over the form. -/
def validate (order : Range String (List String)) (e : Endpoint) (form : Values)
    (gatedEnabled : Bool) : Except Err Unit := do
  let r ← get L e
  if r.gated && !gatedEnabled then .error ⟨.endpointGated, L.quote e.text⟩
  else
    (order.list form).forM fun x => validateEntry L r x.1 x.2
    r.params.forM fun p =>
      if p.required && (valuesOf form p.name).isEmpty then
        .error ⟨.invalidParam, L.quote p.name ++ " is required by endpoint " ++
          L.quote e.text⟩
      else .ok ()

/-! ## Reading a path back -/

/-- The characters that `unicode.SimpleFold` leads to from an ASCII character. -/
def foldOrbit (c : Char) : List Char :=
  if c.toLower = 's' then ['S', 's', '\u017f']
  else if c.toLower = 'k' then ['K', 'k', '\u212a']
  else if c.isAlpha then [c.toUpper, c.toLower]
  else [c]

/-- `strings.EqualFold` of a method of a route, which is ASCII, and a text. -/
def equalFold (method text : String) : Bool :=
  method.toList.length = text.toList.length &&
    (method.toList.zip text.toList).all fun x => decide (x.2 ∈ foldOrbit x.1)

/-- One round of the loop of `Lookup`. -/
def matchRoute (method path : String) (route : Route) : Option (Route × String) :=
  let s := path.toList
  if !equalFold route.method method then none
  else if !route.hasPathParam then
    if route.pathTemplate = path then some (route, "") else none
  else
    let (front, back) := route.around
    if path.utf8ByteSize ≤ (String.ofList front).utf8ByteSize + (String.ofList back).utf8ByteSize ||
        !front.isPrefixOf s || !back.isSuffixOf s then none
    else
      let mid := String.ofList ((s.drop front.length).take (s.length - front.length - back.length))
      match validateLabelName L mid with
      | .error _ => none
      | .ok () => some (route, mid)

/-- The paths that `Lookup` refuses before it looks at a route. -/
def irregular (path : String) : Bool :=
  let s := path.toList
  path = "" || s.head? ≠ some '/' || decide (['.', '.'] <:+: s) || decide (['/', '/'] <:+: s) ||
    s.any fun c => c = '\\' || c = '\x00' || c = '%'

/-- `Lookup`, with the order of its loop over the routes. -/
def lookup (order : List Route) (method path : String) : Option (Route × String) :=
  if irregular path then none else order.findSome? (matchRoute L method path)

end prom_fleet.promapi
