-- The life of a spoke certificate: issuance, revocation, renewal, the prune of the revocation
-- list and the refresh of the serials that the handshakes ask for. The hub processes share one
-- document and one clock. A process keeps the options it was started with, so a restart with
-- other options is another process.
import PromFleet.RevocationCache

namespace prom_fleet.revocation

open interleave store map_range hub

/-! ## Options and certificates -/

/-- The options of a process that the hub accepts. -/
structure Config where
  spokeCertTTL : Int
  renewGrace : Int
  stateRetention : Int
  ttl_pos : 0 < spokeCertTTL
  grace_nonneg : 0 ≤ renewGrace
  retention_nonneg : 0 ≤ stateRetention

/-- What a prune pass keeps beyond the end of an entry. -/
def Config.retain (cfg : Config) : Int := cfg.stateRetention + cfg.renewGrace

structure Certificate where
  serialNumber : Nat
  notBefore : Int
  notAfter : Int
  deriving DecidableEq

/-- `ca.SerialHex`: lowercase hexadecimal without leading zeroes. -/
def serialHex (n : Nat) : String := String.ofList (Nat.toDigits 16 n)

def Certificate.serial (cert : Certificate) : String := serialHex cert.serialNumber

def hexDigit (c : Char) : Bool := ('0' ≤ c && c ≤ '9') || ('a' ≤ c && c ≤ 'f')

/-- `validSerial`: 1 to 64 lowercase hexadecimal digits, not all zero. -/
def validSerial (s : String) : Bool :=
  s.toList.all hexDigit && decide (1 ≤ s.length) && decide (s.length ≤ 64) &&
    s.toList.any fun c => decide (c ≠ '0')

/-- A certificate tells times to the second. -/
def wholeSeconds (t : Int) : Int := t / 1000000000 * 1000000000

def clockSkew : Int := 300000000000

/-- `CA.sign` at `now`, with a root that ends at `rootNotAfter`. -/
def signed (now ttl rootNotAfter : Int) (serialNumber : Nat) : Option Certificate :=
  if rootNotAfter ≤ now then none
  else
    some { serialNumber := serialNumber, notBefore := wholeSeconds (now - clockSkew)
           notAfter := wholeSeconds (min (now + ttl) rootNotAfter) }

/-! ## The machine -/

/-- The document. The rest is no data of the source: the certificates that were
issued, those of them whose serial was revoked after that, and what each prune
pass has retained. -/
structure Hub where
  doc : State
  issued : List Certificate
  dead : List Certificate
  retains : List Int

/-- What the environment decides at a step: the time, whether the store can be reached, the end
of the signing root, the random serial number, and the order in which a map is visited. -/
structure Env where
  now : Int
  up : Bool
  rootNotAfter : Int
  serialNumber : Nat
  visits : Range String RevokedCert

inductive HubOp where
  | clock
  | sign (ttl : Int)
  | revokeCert (rc : RevokedCert)
  | prune (order : PruneOrder) (retain : Int)
  | mutateKeys (op : Op)
  | readEpoch
  | listRevokedCerts

inductive StoreErr where
  | unavailable
  deriving DecidableEq

abbrev HubAns : HubOp → Type
  | .clock => Int
  | .sign _ => Option Certificate
  | .revokeCert _ => Bool
  | .prune _ _ => Unit
  | .mutateKeys _ => Unit
  | .readEpoch => Except StoreErr Nat
  | .listRevokedCerts => Except StoreErr (List RevokedCert)

def hubAct : (o : HubOp) → Env → Hub → Option (HubAns o × Hub)
  | .clock, e, h => some (e.now, h)
  | .sign ttl, e, h =>
    match signed e.now ttl e.rootNotAfter e.serialNumber with
    | none => some (none, h)
    | some cert => some (some cert, { h with issued := cert :: h.issued })
  | .revokeCert rc, e, h =>
    if !e.up then some (false, h)
    else
      match revokeCert rc e.now h.doc with
      | .error _ => some (false, h)
      | .ok a =>
        some (true, { h with doc := a.state
                             dead := h.issued.filter (fun c => c.serial = rc.serial) ++ h.dead })
  | .prune order retain, e, h =>
    if !e.up then some ((), h)
    else
      match prune order e.now retain h.doc with
      | .error _ => some ((), h)
      | .ok a => some ((), { h with doc := a.state, retains := retain :: h.retains })
  | .mutateKeys op, e, h =>
    if !e.up || !op.ofKeys then some ((), h)
    else some ((), { h with doc := after h.doc { now := e.now, op := op } })
  | .readEpoch, e, h => some (if e.up then .ok h.doc.epoch else .error .unavailable, h)
  | .listRevokedCerts, e, h =>
    some (if e.up then .ok (listRevokedCerts e.visits h.doc) else .error .unavailable, h)

def hubMachine {ι : Type} : Machine HubAns ι Env Hub where
  act _ o e h := hubAct o e h

variable {ρ ι : Type}

/-- The clock, the document and the caches of the processes. -/
abbrev World (ρ : Type) := Int × (Hub × (ρ → RevocationCache))

def machine [DecidableEq ρ] : Machine (Either HubAns (@CacheAns ρ)) ι Env (World ρ) :=
  (hubMachine.sum (cacheMachine Env.now)).clocked Env.now

/-! ## Handlers -/

abbrev Call (ρ α : Type) := CacheCall ρ HubAns α

abbrev clock : Call ρ Int := (Prog.call HubOp.clock).inl
abbrev sign (ttl : Int) : Call ρ (Option Certificate) := (Prog.call (HubOp.sign ttl)).inl
abbrev revokeCert (rc : RevokedCert) : Call ρ Bool := (Prog.call (HubOp.revokeCert rc)).inl
abbrev prune (order : PruneOrder) (retain : Int) : Call ρ Unit :=
  (Prog.call (HubOp.prune order retain)).inl
abbrev mutateKeys (op : Op) : Call ρ Unit := (Prog.call (HubOp.mutateKeys op)).inl
abbrev listRevokedCerts : Call ρ (Except StoreErr (List RevokedCert)) :=
  (Prog.call HubOp.listRevokedCerts).inl

/-- A request to revoke a certificate. `guarded` and `bodyOk` are the checks on
the caller and on the body with its reason. -/
structure RevokeRequest where
  guarded : Bool
  serial : String
  bodyOk : Bool
  notAfter : Int
  reason : String

inductive RevokeAnswer where
  | refused
  | invalidRequest
  | internal
  | noContent
  deriving DecidableEq

def handleRevokeCert (cfg : Config) (req : RevokeRequest) : Call ρ RevokeAnswer := do
  if !req.guarded then return .refused
  else if !validSerial req.serial then return .invalidRequest
  else if !req.bodyOk then return .invalidRequest
  else
    let now ← clock
    let notAfter := if isZero req.notAfter then now + cfg.spokeCertTTL else req.notAfter
    if notAfter < now then return .invalidRequest
    else
      let stored ← revokeCert
        { serial := req.serial, revokedAt := now, notAfter := notAfter, reason := req.reason }
      if !stored then return .internal
      else return .noContent

/-- A request to renew. The flags are the checks on the caller, its challenge and
its chain, now and at the end of the leaf, and on the rest of the request. -/
structure RenewRequest where
  guarded : Bool
  nonceOk : Bool
  leaf : Certificate
  trusted : Bool
  trustedThen : Bool
  csrOk : Bool
  proven : Bool

inductive RenewAnswer where
  | denied
  | revoked
  | internal
  | issued (cert : Certificate)

/-- `CA.VerifyChain` at `now`. -/
def verifyChain (req : RenewRequest) (now : Int) : Bool :=
  req.trusted && decide (req.leaf.notBefore ≤ now) && decide (now ≤ req.leaf.notAfter)

def verifyChainAllowingExpiry (req : RenewRequest) (grace : Int) : Call ρ Bool := do
  let now ← clock
  if verifyChain req now then return true
  else
    let now ← clock
    if grace ≤ 0 ∨ ¬ req.leaf.notAfter < now then return false
    else if req.leaf.notAfter + grace < now then return false
    else return req.trustedThen

def handleRenew (cfg : Config) (req : RenewRequest) : Call ρ RenewAnswer := do
  if !req.guarded || !req.nonceOk then return .denied
  else
    let verified ← verifyChainAllowingExpiry req cfg.renewGrace
    if !verified then return .denied
    else
      match ← listRevokedCerts with
      | .error _ => return .internal
      | .ok entries =>
        if (entries.map (·.serial)).contains req.leaf.serial then return .revoked
        else if !req.csrOk || !req.proven then return .denied
        else
          match ← sign cfg.spokeCertTTL with
          | none => return .internal
          | some cert => return .issued cert

/-- The reads of the revocation cache of a process, and how long it trusts them. -/
def keeper (p : ρ) : Keeper ρ HubAns StoreErr :=
  { self := p, ttl := 30000000000, readEpoch := Prog.call HubOp.readEpoch
    readList := Prog.call HubOp.listRevokedCerts }

/-! ## The system -/

/-- What can happen at process `p`: a certificate is issued, or revoked without a `notAfter`, the
timer prunes, a spoke renews, the cache is refreshed, or the keys of the document change. -/
inductive Request (ρ : Type) where
  | issue (p : ρ)
  | revoke (p : ρ) (guarded bodyOk : Bool) (serial reason : String)
  | prune (p : ρ) (order : PruneOrder)
  | renew (p : ρ) (req : RenewRequest)
  | refresh (p : ρ)
  | keys (op : Op)

inductive Outcome where
  | issued (cert : Option Certificate)
  | revoked (x : RevokeAnswer)
  | renewed (x : RenewAnswer)
  | refreshed (x : Except StoreErr Refreshed)
  | finished

def Request.program (cfg : ρ → Config) : Request ρ → Call ρ Outcome
  | .issue p => return .issued (← sign (cfg p).spokeCertTTL)
  | .revoke p guarded bodyOk serial reason => do
    let x ← handleRevokeCert (cfg p)
      { guarded := guarded, serial := serial, bodyOk := bodyOk, notAfter := 0, reason := reason }
    return .revoked x
  | .prune p order => do
    revocation.prune order (cfg p).retain
    return .finished
  | .renew p req => return .renewed (← handleRenew (cfg p) req)
  | .refresh p => return .refreshed (← hub.refresh (keeper p))
  | .keys op => do
    mutateKeys op
    return .finished

def initial (start : State) (time : Int) : World ρ :=
  (time, { doc := start, issued := [], dead := [], retains := [] }, fun _ => RevocationCache.new)

def system (cfg : ρ → Config) (start : State) (time : Int) (calls : ι → Request ρ) :
    Conf (Either HubAns (@CacheAns ρ)) ι (World ρ) Outcome :=
  { shared := initial start time, thread := fun i => (calls i).program cfg }

end prom_fleet.revocation
