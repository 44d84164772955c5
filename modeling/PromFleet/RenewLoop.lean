-- The renewal loop of the spoke. The pods of a cluster share one identity Secret: a pod that is
-- due looks whether a sibling has renewed already, renews itself if not, and saves what it got.
import PromFleet.GoTime
import PromFleet.History
import PromFleet.KubeSecret

namespace prom_fleet.renewal

open interleave gotime kube

/-! ## Identities -/

/-- What the loop reads of a leaf certificate. -/
structure Leaf where
  notBefore : Int
  notAfter : Int
  /-- `clusterIDFromCert`. -/
  clusterID : String
  deriving DecidableEq

structure Identity where
  keyPEM : Bytes
  certPEM : Bytes
  caBundle : Bytes
  leaf : Leaf
  deriving DecidableEq

/-- The PEM texts of an identity. -/
structure Material where
  keyPEM : Bytes
  certPEM : Bytes
  caPEM : Bytes
  deriving DecidableEq

def keyClientKey : String := "tls.key"
def keyClientCert : String := "tls.crt"
def keyCABundle : String := "ca.crt"

/-- The data of the Secret that holds an identity. -/
def secretData (key cert ca : Bytes) : StrMap Bytes :=
  (((∅ : StrMap Bytes).insert keyClientKey key).insert keyClientCert cert).insert keyCABundle ca

/-- What a spoke is configured with, and what it uses of `crypto/tls`. -/
structure Spoke where
  clusterID : String
  /-- `tls.X509KeyPair`, with what is read of its leaf. -/
  x509KeyPair : Bytes → Bytes → Option Leaf
  /-- `time.Duration(float64(total) * renewAtFraction)`. -/
  renewAt : Int → Int

variable (s : Spoke)

/-- `Identity.NeedsRenewal`. -/
def needsRenewal (id : Identity) (now : Int) : Bool :=
  let total := timeSub id.leaf.notAfter id.leaf.notBefore
  if total ≤ 0 then true else decide (id.leaf.notBefore + s.renewAt total < now)

def loadIdentity (m : Material) : Option Identity :=
  (s.x509KeyPair m.certPEM m.keyPEM).map fun leaf =>
    { keyPEM := m.keyPEM, certPEM := m.certPEM, caBundle := m.caPEM, leaf := leaf }

/-- `spoke.assertOwnCluster`. -/
def assertOwnCluster (id : Identity) : Bool := decide (id.leaf.clusterID = s.clusterID)

variable (sec : Secret Bytes)

/-- The material in a Secret, unless the key or the certificate is missing. -/
def material : Option Material :=
  let key := (sec.data.lookup keyClientKey).getD []
  let cert := (sec.data.lookup keyClientCert).getD []
  if key.isEmpty || cert.isEmpty then none
  else some ⟨key, cert, (sec.data.lookup keyCABundle).getD []⟩

/-! ## Operations -/

/-- What the clock is read for. -/
inductive Reading where
  | due
  | adoption
  deriving DecidableEq

/-- The requests of a pod. The `GetSecret` of a `Load` and the one of a `Save` are told apart. -/
inductive Op where
  | timer
  | now (why : Reading)
  | load
  | renew
  | reread
  | createSecret (sec : Secret Bytes)
  | updateSecret (sec : Secret Bytes)

/-- A renewal answers with the new key and what the hub has returned for it. -/
abbrev Ans : Op → Type
  | .timer => Unit
  | .now _ => Int
  | .load => Except Err (Secret Bytes)
  | .renew => Option Material
  | .reread => Except Err (Secret Bytes)
  | .createSecret _ => Except Err (Secret Bytes)
  | .updateSecret _ => Except Err (Secret Bytes)

/-- What the environment decides at a step: the clock of the pod, the faults of the network, the
next resource version and the answer of the hub. -/
structure Env where
  now : Int
  fault : Fault
  gap : Nat
  renewed : Option Material

/-- The versions of the identity Secret, each with the pod that has written it. -/
abbrev Server (ι : Type) := List (Version Bytes ι)

def act {ι : Type} (i : ι) : (o : Op) → Env → Server ι → Option (Ans o × Server ι)
  | .timer, _, v => some ((), v)
  | .now _, e, v => some (e.now, v)
  | .load, e, v => some ((deliver e.fault v (getSecret v, v)).1, v)
  | .renew, e, v => some (e.renewed, v)
  | .reread, e, v => some ((deliver e.fault v (getSecret v, v)).1, v)
  | .createSecret sec, e, v => some (deliver e.fault v (createSecret e.gap i sec v))
  | .updateSecret sec, e, v => some (deliver e.fault v (updateSecret e.gap i sec v))

def podMachine {ι : Type} : Machine Ans ι Env (Server ι) := ⟨act⟩

abbrev Run (α : Type) := Prog Ans α

abbrev timer : Run Unit := Prog.call Op.timer
abbrev clock (why : Reading) : Run Int := Prog.call (Op.now why)
abbrev getToLoad : Run (Except Err (Secret Bytes)) := Prog.call Op.load
abbrev getToSave : Run (Except Err (Secret Bytes)) := Prog.call Op.reread
abbrev askHub : Run (Option Material) := Prog.call Op.renew
abbrev createSecret : Run (Except Err (Secret Bytes)) :=
  Prog.call (Op.createSecret sec)
abbrev updateSecret : Run (Except Err (Secret Bytes)) :=
  Prog.call (Op.updateSecret sec)

/-! ## The store -/

inductive LoadErr where
  | noIdentity
  | read (e : Err)
  deriving DecidableEq

/-- `secretIdentityStore.Load`. -/
def load : Run (Except LoadErr Material) := do
  match ← getToLoad with
  | .error .notFound => return .error .noIdentity
  | .error e => return .error (.read e)
  | .ok sec =>
    match material sec with
    | none => return .error .noIdentity
    | some m => return .ok m

inductive SaveErr where
  | read (e : Err)
  | create (e : Err)
  | update (e : Err)
  /-- The model has stopped to try again. -/
  | again
  deriving DecidableEq

/-- `secretIdentityStore.Save`, where `again` is the call that it makes of itself. -/
def saveOr (again : Run (Except SaveErr Unit)) (id : Identity) : Run (Except SaveErr Unit) := do
  let data := secretData id.keyPEM id.certPEM id.caBundle
  match ← getToSave with
  | .error .notFound =>
    match ← createSecret ⟨0, data, ∅, ∅⟩ with
    | .error .alreadyExists => again
    | .error e => return .error (.create e)
    | .ok _ => return .ok ()
  | .error e => return .error (.read e)
  | .ok existing =>
    match ← updateSecret { existing with data := data } with
    | .error e => return .error (.update e)
    | .ok _ => return .ok ()

/-- `secretIdentityStore.Save`, which calls itself up to `retries` times. -/
def save : Nat → Identity → Run (Except SaveErr Unit)
  | 0, id => saveOr (return .error .again) id
  | n + 1, id => saveOr (save n id) id

/-! ## The loop -/

/-- What the pod that runs on `id` makes of a stored identity. -/
def adoptable (id stored : Identity) (now : Int) : Bool :=
  !needsRenewal s stored now && decide (id.leaf.notAfter < stored.leaf.notAfter) &&
    assertOwnCluster s stored

/-- `spoke.adoptStoredIdentity`. -/
def adoptStoredIdentity (id : Identity) : Run (Option Identity) := do
  match ← load with
  | .error _ => return none
  | .ok m =>
    match loadIdentity s m with
    | none => return none
    | some stored =>
      let now ← clock .adoption
      return if adoptable s id stored now then some stored else none

/-- `enroller.renew`, up to the answer of the hub and then `assemble`. -/
def renew : Run (Option Identity) := do
  match ← askHub with
  | none => return none
  | some m => return loadIdentity s m

/-- What the pod runs on, and whether it knows that the Secret does not have it. -/
structure Pod where
  identity : Option Identity
  identityUnpersisted : Bool

/-- The second half of an iteration of `renewLoop`: the renewal, if it is due. -/
def renewIfDue (retries : Nat) (id : Identity) (pod : Pod) : Run Pod := do
  let now ← clock .due
  if !needsRenewal s id now then return pod
  match ← adoptStoredIdentity s id with
  | some adopted => return { pod with identity := some adopted }
  | none =>
    match ← renew s with
    | none => return pod
    | some renewed =>
      match ← save retries renewed with
      | .ok () => return { pod with identity := some renewed }
      | .error _ =>
        match ← adoptStoredIdentity s id with
        | some adopted => return { pod with identity := some adopted }
        | none => return { identity := some renewed, identityUnpersisted := true }

/-- One iteration of `renewLoop`. -/
def iteration (retries : Nat) (pod : Pod) : Run Pod := do
  timer
  match pod.identity with
  | none => return pod
  | some id =>
    if pod.identityUnpersisted then
      match ← adoptStoredIdentity s id with
      | some adopted => return { identity := some adopted, identityUnpersisted := false }
      | none =>
        match ← save retries id with
        | .ok () => renewIfDue s retries id { pod with identityUnpersisted := false }
        | .error _ => renewIfDue s retries id pod
    else renewIfDue s retries id pod

/-- `spoke.renewLoop`, for so many iterations. -/
def renewLoop (retries : Nat) : Nat → Pod → Run Pod
  | 0, pod => return pod
  | n + 1, pod => do
    let pod ← iteration s retries pod
    renewLoop retries n pod

/-- The pods of one cluster on one identity Secret. -/
def cluster {ι : Type} (retries : Nat) (server : Server ι) (pods : ι → Pod) (rounds : ι → Nat) :
    Conf Ans ι (Server ι) Pod :=
  { shared := server, thread := fun i => renewLoop s retries (rounds i) (pods i) }

end prom_fleet.renewal
