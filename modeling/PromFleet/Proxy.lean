-- The proxy of the hub: one call asks the registry for the cluster, checks the scope and
-- the arguments, takes a slot of the cluster and bytes of the hub's budget, and hands the
-- request to a session. Many calls share the two budgets.
import PromFleet.LookbackLaws
import PromFleet.PromAPILaws
import PromFleet.ScopeLaws
import PromFleet.WeightedSem

namespace prom_fleet.registry

inductive SessionErr where
  | unknownCluster
  | notConnected
  deriving DecidableEq

namespace Reg

variable (r : Reg)

/-- The open slots with their keys, in the order of the loop. `gone` tells those whose session is
closed. -/
def live (o : Orders) (e : Entry) (gone : Ref → Bool) : List (String × Ref × Slot) :=
  (o.slots.list e.slots).filterMap fun x =>
    (r.heap[x.2]?).bind fun sl => if gone x.2 then none else some (x.1, x.2, sl)

/-- The slots that `pickLocked` chooses from, by their keys. -/
def eligible (o : Orders) (e : Entry) (gone : Ref → Bool) :
    List (String × Ref × Slot) :=
  let healthy := (r.live o e gone).filter fun x => x.2.2.facts.reachable
  (if healthy.isEmpty then r.live o e gone else healthy).insertionSort fun a b => a.1 ≤ b.1

/-- `pickLocked`: the slot whose session it gives. -/
def pickLocked (o : Orders) (e : Entry) (gone : Ref → Bool) :
    Option (String × Ref × Slot) :=
  let keys := r.eligible o e gone
  keys[(e.rr &&& 2147483647) % keys.length]?

def withCursor (id : String) (rr : Nat) : Reg :=
  match r.entries.lookup id with
  | none => r
  | some e => { r with entries := r.entries.insert id { e with rr := rr % 2 ^ 64 } }

/-- `Session`. The counter goes on if there is a slot to choose. -/
def session (grace : Int) (o : Orders) (now : Int) (gone : Ref → Bool) (id : String) :
    Except SessionErr Session × Reg :=
  match r.entries.lookup id with
  | none => (.error .unknownCluster, r)
  | some e =>
    if !presentLocked grace e now then (.error .unknownCluster, r)
    else
      match r.pickLocked o e gone with
      | none => (.error .notConnected, r)
      | some x => (.ok x.2.2.session, r.withCursor id (e.rr + 1))

end Reg

end prom_fleet.registry

namespace prom_fleet.promproxy

open interleave map_range fleet registry gotime promapi weighted

/-! ## The proxy -/

structure Options where
  registry : Bool
  defaultTimeout : Int
  maxTimeout : Int
  maxResponseBytes : Int
  globalResponseBudget : Int
  maxInflightPerCluster : Int
  enableStatusConfig : Bool

/-- `Proxy` as `New` builds it, with the grace window of its registry. -/
structure Proxy where
  grace : Int
  defaultTimeout : Int
  maxTimeout : Int
  maxResponseBytes : Int
  maxInflight : Int
  enableConfig : Bool
  /-- The capacity of the byte semaphore. -/
  budget : Int
  defaultTimeout_le : defaultTimeout ≤ maxTimeout
  maxResponseBytes_pos : 0 < maxResponseBytes
  maxResponseBytes_le : maxResponseBytes ≤ budget
  maxInflight_pos : 0 < maxInflight

/-- An option, or its default if it is zero. -/
def orDefault (v fallback : Int) : Int := if v = 0 then fallback else v

def new (durationString : Int → String) (grace : Int) (opts : Options) : Except String Proxy :=
  let defaultTimeout := orDefault opts.defaultTimeout (30 * second)
  let maxTimeout := orDefault opts.maxTimeout (120 * second)
  let maxResponseBytes := orDefault opts.maxResponseBytes 33554432
  let maxInflight := orDefault opts.maxInflightPerCluster 8
  let budget := orDefault opts.globalResponseBudget 268435456
  if !opts.registry then .error "promproxy: registry is required"
  else if opts.defaultTimeout < 0 ∨ opts.maxTimeout < 0 then
    .error "promproxy: timeouts must not be negative"
  else if hbytes : opts.maxResponseBytes < 0 ∨ opts.globalResponseBudget < 0 then
    .error "promproxy: byte budgets must not be negative"
  else if hinflight : opts.maxInflightPerCluster < 0 then
    .error "promproxy: max in-flight per cluster must not be negative"
  else if hbudget : budget < maxResponseBytes then
    .error ("promproxy: global response budget " ++ toString budget ++
      " is smaller than the per-response cap " ++ toString maxResponseBytes)
  else if htimeout : maxTimeout < defaultTimeout then
    .error ("promproxy: default timeout " ++ durationString defaultTimeout ++
      " exceeds max timeout " ++ durationString maxTimeout)
  else
    .ok { grace, defaultTimeout, maxTimeout, maxResponseBytes, maxInflight, budget
          enableConfig := opts.enableStatusConfig
          defaultTimeout_le := not_lt.mp htimeout
          maxResponseBytes_pos := by grind [orDefault]
          maxResponseBytes_le := not_lt.mp hbudget
          maxInflight_pos := by grind [orDefault] }

structure Call where
  clusterID : String
  endpoint : Endpoint
  labelName : String
  form : Values
  timeout : Int
  maxBytes : Int
  requestID : String

structure Request where
  method : String
  path : String
  form : String
  maxResponseBytes : Int
  acceptGzip : Bool
  requestID : String
  deriving DecidableEq

structure Result where
  body : Bytes
  status : Int
  warnings : List String
  truncated : Bool
  latency : Int
  bytes : Int
  deriving DecidableEq

/-- `ctx.Err()` of a context that has ended. -/
inductive CtxErr where
  | canceled
  | deadlineExceeded
  deriving DecidableEq

/-- An error of a session or of a body: its text and what `errors.Is` finds in it. -/
structure CallErr where
  text : String
  notConnected : Bool
  responseTooLarge : Bool
  contextEnded : Bool
  deriving DecidableEq

/-- The errors of `Do`, each with what its text names. -/
inductive Err where
  | api (e : promapi.Err)
  | forbidden (clusterID : String)
  | unknownCluster (clusterID : String)
  | notConnected (clusterID : String) (lastSeen since : Int)
  | busy (clusterID budget : String) (limit retryAfter : Int)
  | ended (clusterID : String) (endpoint : Endpoint) (cause : CtxErr)
  | aborted (clusterID : String) (endpoint : Endpoint) (cause : CallErr)
  | overLimit (clusterID : String) (endpoint : Endpoint) (cause : CallErr)
  | truncated (clusterID : String) (endpoint : Endpoint) (bytes : Int)
  | upstream (clusterID : String) (endpoint : Endpoint) (cause : CallErr)
  deriving DecidableEq

/-- What `Do` returns: a truncated body comes with an error. -/
structure Outcome where
  result : Option Result
  err : Option Err
  deriving DecidableEq

/-- `tunnel.Response`, up to what the reading of its body brings. -/
structure Response where
  statusCode : Int
  hasBody : Bool
  hasTrailer : Bool
  deriving DecidableEq

structure Trailer where
  warnings : List String
  truncated : Bool
  err : Option CallErr
  deriving DecidableEq

/-- The functions of Go's library that the proxy uses. -/
structure Lib where
  api : promapi.Lib
  queryEscape : String → String

/-- `url.Values.Encode`. -/
def encode (queryEscape : String → String) (form : Values) : String :=
  "&".intercalate ((ascending.list form).flatMap fun x =>
    x.2.map fun v => queryEscape x.1 ++ "=" ++ queryEscape v)

/-! ## What a call may use -/

def allows (p : Option Principal) (id : String) (labels : StrMap String) : Bool :=
  match p with
  | none => false
  | some p => allowsCluster p.scope id labels

/-- The zero value of `fleet.Limits`. -/
def noLimits : Limits := ⟨0, 0, 0, 0, 0, 0, 0, 0⟩

def limitsOf (p : Option Principal) : Limits :=
  match p.bind Principal.scope with
  | none => noLimits
  | some scope => scope.limits

namespace Proxy

variable (p : Proxy)

variable (lim : Limits)

def effectiveTimeout (want : Int) : Int :=
  let t := min (if want ≤ 0 then p.defaultTimeout else want) p.maxTimeout
  if 0 < lim.timeout then min t lim.timeout else t

def effectiveMaxBytes (want : Int) : Int :=
  let b := min (if want ≤ 0 then p.maxResponseBytes else want) p.maxResponseBytes
  if 0 < lim.maxResponseBytes then min b lim.maxResponseBytes else b

def effectiveInflight : Int :=
  if 0 < lim.maxConcurrentPerCluster then min p.maxInflight lim.maxConcurrentPerCluster
  else p.maxInflight

theorem effectiveMaxBytes_mem (want : Int) :
    0 < p.effectiveMaxBytes lim want ∧ p.effectiveMaxBytes lim want ≤ p.budget := by
  have hpos := p.maxResponseBytes_pos
  have hle := p.maxResponseBytes_le
  unfold effectiveMaxBytes
  dsimp only
  split <;> split <;> omega

theorem effectiveInflight_le : p.effectiveInflight lim ≤ p.maxInflight := by
  unfold effectiveInflight
  split <;> omega

end Proxy

/-! ## The shared state -/

/-- The two semaphores. The waiter of a call is named by the call: a call queues once. -/
structure Hub (ι : Type) where
  bytes : Sem ι
  inflight : StrMap Int

namespace Hub

variable {ι : Type}

/-- `s.inflight[clusterID]`. -/
def slotsOf (s : Hub ι) (id : String) : Int := (s.inflight.lookup id).getD 0

/-- `inflightSem.acquire`. -/
def acquireSlot (s : Hub ι) (id : String) (limit : Int) : Bool × Hub ι :=
  if limit ≤ s.slotsOf id then (false, s)
  else (true, { s with inflight := s.inflight.insert id (s.slotsOf id + 1) })

/-- `inflightSem.release`. -/
def releaseSlot (s : Hub ι) (id : String) : Hub ι :=
  if s.slotsOf id - 1 ≤ 0 then { s with inflight := s.inflight.erase id }
  else { s with inflight := s.inflight.insert id (s.slotsOf id - 1) }

end Hub

/-- The operations of a call. The critical sections of `byteSem.acquire` are `reserve` and
`withdraw`, its `select` is `wait`, and `receive` is the `<-w.ready` of a lost race. -/
inductive Op where
  | now
  | cluster (id : String)
  | session (id : String)
  | formOrder
  | acquireSlot (id : String) (limit : Int)
  | releaseSlot (id : String)
  | reserve (n : Int)
  | wait
  | withdraw
  | receive
  | release (n : Int)
  | ctxErr
  | send (s : Session) (req : Request) (timeout : Int)
  | readCapped (maxBytes : Int)
  | trailer
  | closeBody

abbrev Ans : Op → Type
  | .now => Int
  | .cluster _ => Option Cluster
  | .session _ => Except SessionErr Session
  | .formOrder => Range String (List String)
  | .acquireSlot _ _ => Bool
  | .releaseSlot _ => Unit
  | .reserve _ => Reservation
  | .wait => Option CtxErr
  | .withdraw => Bool
  | .receive => Unit
  | .release _ => Unit
  | .ctxErr => Option CtxErr
  | .send _ _ _ => Except CallErr Response
  | .readCapped _ => Except CallErr (Bytes × Bool)
  | .trailer => Trailer
  | .closeBody => Unit

/-- What the surroundings decide at an operation: the clock, the registry as it is then,
whether the context has ended, and what the session brings. -/
structure Env where
  now : Int
  reg : Reg
  orders : Orders
  gone : Ref → Bool
  formOrder : Range String (List String)
  ctx : Option CtxErr
  reply : Except CallErr Response
  body : Except CallErr (Bytes × Bool)
  trailer : Trailer

/-- What an operation of call `i` does. A `select` that finds its context ended may take
that branch even if the waiter is ready. -/
def act {ι : Type} [DecidableEq ι] (p : Proxy) (i : ι) :
    (o : Op) → Env → Hub ι → Option (Ans o × Hub ι)
  | .now, e, s => some (e.now, s)
  | .cluster id, e, s => some (e.reg.cluster p.grace e.orders e.now id, s)
  | .session id, e, s => some ((e.reg.session p.grace e.orders e.now e.gone id).1, s)
  | .formOrder, e, s => some (e.formOrder, s)
  | .acquireSlot id limit, _, s => some (s.acquireSlot id limit)
  | .releaseSlot id, _, s => some ((), s.releaseSlot id)
  | .reserve n, _, s => some ((s.bytes.reserve i n).1, { s with bytes := (s.bytes.reserve i n).2 })
  | .wait, e, s =>
    match e.ctx with
    | some err => some (some err, s)
    | none => if i ∈ s.bytes.ready then some (none, s) else none
  | .withdraw, _, s => some ((s.bytes.withdraw i).1, { s with bytes := (s.bytes.withdraw i).2 })
  | .receive, _, s => if i ∈ s.bytes.ready then some ((), s) else none
  | .release n, _, s => some ((), { s with bytes := s.bytes.release n })
  | .ctxErr, e, s => some (e.ctx, s)
  | .send _ _ _, e, s => some (e.reply, s)
  | .readCapped _, e, s => some (e.body, s)
  | .trailer, e, s => some (e.trailer, s)
  | .closeBody, _, s => some ((), s)

def machine (ι : Type) [DecidableEq ι] (p : Proxy) : Machine Ans ι Env (Hub ι) where
  act := act p

/-! ## One call -/

/-- The checks of `authorizeAndBuild` after the scope. -/
def build (L : Lib) (enableConfig : Bool) (order : Range String (List String)) (call : Call) :
    Except Err (Route × String) := do
  let route ← (promapi.get L.api call.endpoint).mapError .api
  let path ← (promapi.buildPath L.api call.endpoint call.labelName).mapError .api
  (promapi.validate L.api order call.endpoint call.form enableConfig).mapError .api
  return (route, path)

/-- The labels of a cluster; a cluster that is not known has none. -/
def labelsOf (c : Option Cluster) : StrMap String := (c.map Cluster.labels).getD ∅

/-- `byteSem.acquire`: no error means that the bytes are reserved. -/
def acquireBytes (capacity n : Int) : Prog Ans Bool := do
  if n ≤ 0 then return true
  else if capacity < n then return false
  else
    match ← (Prog.call (Op.reserve n) : Prog Ans Reservation) with
    | .granted => return true
    | .queued =>
      match ← (Prog.call Op.wait : Prog Ans (Option CtxErr)) with
      | none => return true
      | some _ =>
        if ← (Prog.call Op.withdraw : Prog Ans Bool) then return false
        else
          let _ ← (Prog.call Op.receive : Prog Ans Unit)
          let _ ← (Prog.call (Op.release n) : Prog Ans Unit)
          return false

/-- `byteSem.release`. -/
def releaseBytes (n : Int) : Prog Ans Unit :=
  if n ≤ 0 then pure () else Prog.call (Op.release n)

variable (clusterID : String)

/-- The error for a cluster whose spoke is gone, with its last contact. -/
def notConnected : Prog Ans Err := do
  match ← (Prog.call (Op.cluster clusterID) : Prog Ans (Option Cluster)) with
  | none => return .notConnected clusterID 0 0
  | some c =>
    if isZero c.lastSeen then return .notConnected clusterID c.lastSeen 0
    else
      let now ← (Prog.call Op.now : Prog Ans Int)
      return .notConnected clusterID c.lastSeen (timeSub now c.lastSeen)

def session : Prog Ans (Except Err Session) := do
  match ← (Prog.call (Op.session clusterID) : Prog Ans (Except SessionErr Session)) with
  | .ok s => return .ok s
  | .error .unknownCluster => return .error (.unknownCluster clusterID)
  | .error .notConnected => return .error (← notConnected clusterID)

def wrapCallError (call : Call) (err : CallErr) : Prog Ans Err :=
  if err.notConnected then notConnected call.clusterID
  else if err.responseTooLarge then pure (.overLimit call.clusterID call.endpoint err)
  else if err.contextEnded then pure (.aborted call.clusterID call.endpoint err)
  else pure (.upstream call.clusterID call.endpoint err)

def fail (e : Err) : Outcome := ⟨none, some e⟩

/-- The end of `Do`: the result that was read, with the error of a cut body. -/
def finish (call : Call) (res : Result) : Outcome :=
  ⟨some res, if res.truncated then some (.truncated call.clusterID call.endpoint res.bytes)
    else none⟩

/-- The part of `Do` that reads an answer. -/
def readAnswer (call : Call) (start maxBytes : Int) (resp : Response) : Prog Ans Outcome := do
  match ← (Prog.call (Op.readCapped maxBytes) : Prog Ans (Except CallErr (Bytes × Bool))) with
  | .error err => return fail (← wrapCallError call err)
  | .ok (body, truncated) =>
    let now ← (Prog.call Op.now : Prog Ans Int)
    let res : Result :=
      { body, truncated, status := resp.statusCode, warnings := []
        latency := timeSub now start, bytes := body.length }
    if truncated || !resp.hasTrailer then return finish call res
    else
      let tr ← (Prog.call Op.trailer : Prog Ans Trailer)
      match tr.err with
      | some err => return fail (← wrapCallError call err)
      | none => return finish call { res with warnings := tr.warnings, truncated := tr.truncated }

/-- The part of `Do` that holds the bytes: the request, the answer, and the closing of its
body. -/
def exchange (call : Call) (sess : Session) (req : Request) (start timeout maxBytes : Int) :
    Prog Ans Outcome := do
  match ← (Prog.call (Op.send sess req timeout) : Prog Ans (Except CallErr Response)) with
  | .error err => return fail (← wrapCallError call err)
  | .ok resp =>
    let out ← readAnswer call start maxBytes resp
    if resp.hasBody then
      let _ ← (Prog.call Op.closeBody : Prog Ans Unit)
      return out
    else return out

namespace Proxy

variable (p : Proxy) (L : Lib)

variable (principal : Option Principal)

/-- The part of `authorizeAndBuild` after the look into the registry. -/
def judge (call : Call) (cluster : Option Cluster) :
    Prog Ans (Except Err (Route × String)) := do
  if !allows principal call.clusterID (labelsOf cluster) then
    return .error (.forbidden call.clusterID)
  else if cluster.isNone then return .error (.unknownCluster call.clusterID)
  else
    let order ← (Prog.call Op.formOrder : Prog Ans (Range String (List String)))
    return build L p.enableConfig order call

def authorizeAndBuild (call : Call) :
    Prog Ans (Except Err (Route × String)) :=
  if call.clusterID = "" then
    pure (.error (.api ⟨.invalidParam, "cluster id is required"⟩))
  else Prog.call (Op.cluster call.clusterID) >>= p.judge L principal call

def request (route : Route) (path : String) (call : Call) (maxBytes : Int) : Request :=
  { method := route.method, path := path, form := encode L.queryEscape call.form
    maxResponseBytes := maxBytes, acceptGzip := true, requestID := call.requestID }

/-- The part of `Do` that holds a slot of the cluster. -/
def withSlot (call : Call) (route : Route) (path : String)
    (sess : Session) (start : Int) : Prog Ans Outcome := do
  let limits := limitsOf principal
  let timeout := p.effectiveTimeout limits call.timeout
  let maxBytes := p.effectiveMaxBytes limits call.maxBytes
  if ← acquireBytes p.budget maxBytes then
    let out ← exchange call sess (request L route path call maxBytes) start timeout maxBytes
    releaseBytes maxBytes
    return out
  else
    match ← (Prog.call Op.ctxErr : Prog Ans (Option CtxErr)) with
    | some cause => return fail (.ended call.clusterID call.endpoint cause)
    | none => return fail (.busy call.clusterID "hub-response-bytes" p.budget (2 * second))

/-- The part of `Do` after the checks. -/
def proceed (call : Call) (start : Int) :
    Except Err (Route × String) → Prog Ans Outcome
  | .error e => pure (fail e)
  | .ok (route, path) => do
    match ← session call.clusterID with
    | .error e => return fail e
    | .ok sess =>
      let inflight := p.effectiveInflight (limitsOf principal)
      if ← (Prog.call (Op.acquireSlot call.clusterID inflight) : Prog Ans Bool) then
        let out ← p.withSlot L principal call route path sess start
        let _ ← (Prog.call (Op.releaseSlot call.clusterID) : Prog Ans Unit)
        return out
      else
        return fail (.busy call.clusterID "cluster-inflight" inflight (second / 2))

/-- `Do`. -/
def doCall (call : Call) : Prog Ans Outcome := do
  let start ← (Prog.call Op.now : Prog Ans Int)
  p.authorizeAndBuild L principal call >>= p.proceed L principal call start

end Proxy

structure Ask where
  principal : Option Principal
  call : Call

/-- The calls before their first step, with all budgets free. -/
def start {ι : Type} (L : Lib) (p : Proxy) (asks : ι → Ask) : Conf Ans ι (Hub ι) Outcome where
  shared := { bytes := ⟨p.budget, p.budget, [], []⟩, inflight := ∅ }
  thread i := p.doCall L (asks i).principal (asks i).call

/-! ## A small hub -/

theorem smallProxy_bytes : (0 : Int) < 4 ∧ (4 : Int) ≤ 10 := by decide

theorem smallProxy_slots : (0 : Int) < 1 := by decide

/-- A hub with ten bytes, four for a response, and one call to a cluster at a time. -/
def smallProxy : Proxy where
  grace := 0
  defaultTimeout := second
  maxTimeout := second
  maxResponseBytes := 4
  maxInflight := 1
  enableConfig := false
  budget := 10
  defaultTimeout_le := Int.le_refl _
  maxResponseBytes_pos := smallProxy_bytes.1
  maxResponseBytes_le := smallProxy_bytes.2
  maxInflight_pos := smallProxy_slots

def smallLib : Lib where
  api := { go := mcptools.plainLib, quote := id, nonPositive := fun _ => false }
  queryEscape := id

def emptyReg : Reg := ⟨[], ∅, false, 0⟩

/-- A registry with a pod of the cluster "east". -/
def eastReg : Reg where
  heap := [{ session := ⟨"east", "a", 0, "one"⟩, generation := 1, fingerprint := "fp"
             certSerial := "a", facts := Cluster.zero, spokeLabels := ∅ }]
  entries := Finmap.singleton "east" ⟨Finmap.singleton "one" 0, 0, Cluster.zero⟩
  closed := false
  anonSeq := 0

/-- Surroundings in which every request is answered with an empty body. -/
def calm (reg : Reg) : Env where
  now := 5
  reg := reg
  orders := ⟨ascending, ascending⟩
  gone _ := false
  formOrder := ascending
  ctx := none
  reply := .ok ⟨200, true, true⟩
  body := .ok ([], false)
  trailer := ⟨[], false, none⟩

/-- A caller that may reach these clusters. -/
def callerOf (allow : List String) : Principal where
  kid := "k"
  name := "agent"
  cls := .agent
  role := .viewer
  scope := some { fleet.labelScope ∅ with clusters := ⟨allow, ∅, []⟩ }
  epoch := 0

def callTo (endpoint : Endpoint) (form : Values) : Call where
  clusterID := clusterID
  endpoint := endpoint
  labelName := ""
  form := form
  timeout := 0
  maxBytes := 0
  requestID := ""

end prom_fleet.promproxy
