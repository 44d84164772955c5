-- The bootstrap of a hub: `prepare` brings the CA key pair and the pepper from the CA Secret
-- to the files of a replica, generates what is missing, and writes that back. Any number of
-- replicas do so at once, each with an empty directory of its own.
import PromFleet.Interleave
import PromFleet.KubeSecret

namespace prom_fleet.hub

open interleave kube

/-! ## Material -/

def secretKeyCACert : String := "ca.crt"
def secretKeyCAKey : String := "ca.key"
def secretKeyPepper : String := "pepper.key"

def MinPepperBytes : Nat := 32

structure CaMaterial where
  certPEM : Bytes
  keyPEM : Bytes
  pepper : Bytes
  extraRoots : Bytes
  deriving DecidableEq

def CaMaterial.empty (m : CaMaterial) : Bool :=
  m.certPEM.isEmpty && m.keyPEM.isEmpty && m.pepper.isEmpty

def CaMaterial.complete (m : CaMaterial) : Bool :=
  !m.certPEM.isEmpty && !m.keyPEM.isEmpty && !m.pepper.isEmpty

/-- What the bootstrap uses of the packages `ca` and `token` and of the rotation
controller. A seed stands for what the random generator gives. -/
structure Packages where
  /-- `readCARotation(sec).additionalRoots(nil)`. -/
  rotationRoots : Secret Bytes → Bytes
  joinRootsPEM : Bytes → Bytes → Bytes
  /-- `ca.ParseTrustBundlePEM` takes the bundle. -/
  parseTrustBundle : Bytes → Bool
  /-- `ca.Options.additionalRoots` takes the roots. -/
  additionalRoots : Bytes → Bool
  /-- `ca.parseMaterial` takes the certificate, the key and the further roots. -/
  parseMaterial : Bytes → Bytes → Bytes → Bool
  /-- The PEM blocks of a new root: its certificate and its key. -/
  mintRoot : Nat → Bytes × Bytes
  generatePepper : Nat → Bytes
  mintRoot_ne : ∀ seed, (mintRoot seed).1 ≠ [] ∧ (mintRoot seed).2 ≠ []
  generatePepper_length : ∀ seed, (generatePepper seed).length = MinPepperBytes

/-- The scratch directory of a replica. -/
structure Files where
  cert : Option Bytes
  key : Option Bytes
  pepper : Option Bytes

/-- The loaded CA: the bytes that it was made of. -/
structure Authority where
  certPEM : Bytes
  keyPEM : Bytes
  rootsPEM : Bytes
  deriving DecidableEq

inductive PrepareErr where
  | disk
  | readSecret (e : Err)
  | trustBundle
  | caIncomplete
  | caInvalid
  | mintRoot
  | shortPepper
  | generatePepper
  | secretEmpty
  | createSecret (e : Err)
  | completeSecret (e : Err)
  deriving DecidableEq

/-! ## Operations -/

/-- What the environment decides at a step: the faults of the disk and of the
network, the next resource version, and what the random generator gives. -/
structure BootEnv where
  disk : Bool
  fault : Fault
  gap : Nat
  seed : Option Nat

/-- The atomic operations. `getSecret` names the material that the replica read
before, if this is not its first read. -/
inductive BootOp where
  | disk
  | getSecret (before : Option CaMaterial)
  | createSecret (sec : Secret Bytes)
  | updateSecret (sec : Secret Bytes)
  | mintRoot
  | generatePepper

abbrev BootAns : BootOp → Type
  | .disk => Bool
  | .getSecret _ => Except Err (Secret Bytes)
  | .createSecret _ => Except Err (Secret Bytes)
  | .updateSecret _ => Except Err (Secret Bytes)
  | .mintRoot => Option (Bytes × Bytes)
  | .generatePepper => Option Bytes

abbrev Server := List (Version Bytes Unit)

variable (P : Packages)

def bootAct : (o : BootOp) → BootEnv → Server → BootAns o × Server
  | .disk, e, s => (e.disk, s)
  | .getSecret _, e, s => ((deliver e.fault s (getSecret s, s)).1, s)
  | .createSecret sec, e, s => deliver e.fault s (createSecret e.gap () sec s)
  | .updateSecret sec, e, s => deliver e.fault s (updateSecret e.gap () sec s)
  | .mintRoot, e, s => (e.seed.map P.mintRoot, s)
  | .generatePepper, e, s => (e.seed.map P.generatePepper, s)

def bootMachine {ι : Type} (P : Packages) : Machine BootAns ι BootEnv Server where
  act _ o e s := some (bootAct P o e s)

/-- A step of the bootstrap: a program that can fail. -/
abbrev Boot := ExceptT PrepareErr (Prog BootAns)

def perform (o : BootOp) : Boot (BootAns o) := ExceptT.lift (Prog.call o)

abbrev getSecret (before : Option CaMaterial) : Boot (Except Err (Secret Bytes)) :=
  perform (.getSecret before)
variable (sec : Secret Bytes)

abbrev createSecret : Boot (Except Err (Secret Bytes)) :=
  perform (.createSecret sec)
abbrev updateSecret : Boot (Except Err (Secret Bytes)) :=
  perform (.updateSecret sec)
abbrev mintRoot : Boot (Option (Bytes × Bytes)) := perform .mintRoot
abbrev generatePepper : Boot (Option Bytes) := perform .generatePepper

/-- The file system does what it is asked to, or the step fails. -/
def disk : Boot Unit := do
  let ok : Bool ← perform .disk
  if ok then return () else throw .disk

/-! ## The steps of `prepare` -/

/-- The field of the Secret. A key that is missing in a Go map reads as nil. -/
def field (k : String) (sec : Secret Bytes) : Bytes := (sec.data.lookup k).getD []

def materialOf : CaMaterial :=
  { certPEM := field secretKeyCACert sec
    keyPEM := field secretKeyCAKey sec
    pepper := field secretKeyPepper sec
    extraRoots := P.rotationRoots sec }

def noMaterial : CaMaterial := { certPEM := [], keyPEM := [], pepper := [], extraRoots := [] }

/-- `bootstrapper.load`. A missing Secret means first boot. -/
def load : Boot CaMaterial := do
  match ← getSecret none with
  | .error .notFound => return noMaterial
  | .error e => throw (.readSecret e)
  | .ok sec => return materialOf P sec

/-- The file after a write that leaves out empty data. -/
def overwrite (file : Option Bytes) (data : Bytes) : Option Bytes :=
  if data.isEmpty then file else some data

def Files.adopt (f : Files) (m : CaMaterial) : Files :=
  { cert := overwrite f.cert m.certPEM
    key := overwrite f.key m.keyPEM
    pepper := overwrite f.pepper m.pepper }

/-- `bootstrapper.materialise`. -/
def materialise (m : CaMaterial) (f : Files) : Boot Files := do
  disk
  return f.adopt m

/-- `readTrustBundle` for the bundle that the configuration names. -/
def readTrustBundle (bundle : Option Bytes) : Boot Bytes := do
  match bundle with
  | none => return []
  | some pem =>
    disk
    if P.parseTrustBundle pem then return pem else throw .trustBundle

/-- `ca.Load`. -/
def loadCA (roots : Bytes) (f : Files) : Boot Authority := do
  disk
  match f.cert, f.key with
  | some cert, some key =>
    if P.parseMaterial cert key roots then
      return { certPEM := cert, keyPEM := key, rootsPEM := roots }
    else throw .caInvalid
  | _, _ => throw .caIncomplete

/-- `ca.LoadOrCreate`. No one else writes to the directory, so a half-present CA
does not get better by waiting. -/
def loadOrCreate (roots : Bytes) (f : Files) : Boot (Files × Authority) := do
  match f.cert, f.key with
  | none, none =>
    disk
    if !P.additionalRoots roots then throw .caInvalid
    match ← mintRoot with
    | none => throw .mintRoot
    | some (cert, key) =>
      return ({ f with cert := some cert, key := some key },
        { certPEM := cert, keyPEM := key, rootsPEM := roots })
  | _, _ => return (f, ← loadCA P roots f)

/-- `loadPepper`: the pepper is also what the hasher is keyed with. -/
def loadPepper (f : Files) : Boot (Files × Bytes) := do
  disk
  match f.pepper with
  | some p => if p.length < MinPepperBytes then throw .shortPepper else return (f, p)
  | none =>
    match ← generatePepper with
    | none => throw .generatePepper
    | some p => return ({ f with pepper := some p }, p)

/-- What a replica has generated or adopted, by the keys of the Secret. -/
def generatedData (cert key pepper : Bytes) : List (String × Bytes) :=
  [(secretKeyCACert, cert), (secretKeyCAKey, key), (secretKeyPepper, pepper)]

/-- The field gets the value if it is missing. The list has the fields that were
filled in. -/
def fillField (acc : StrMap Bytes × List String) (kv : String × Bytes) :
    StrMap Bytes × List String :=
  if ((acc.1.lookup kv.1).getD []).isEmpty then (acc.1.insert kv.1 kv.2, acc.2 ++ [kv.1]) else acc

def fill (data : StrMap Bytes) (generated : List (String × Bytes)) : StrMap Bytes × List String :=
  generated.foldl fillField (data, [])

/-- `bootstrapper.complete`. It tells whether another replica was faster. -/
def complete (stored : CaMaterial) (generated : List (String × Bytes)) : Boot Bool := do
  match ← getSecret (some stored) with
  | .error e => throw (.readSecret e)
  | .ok sec =>
    let filled := fill sec.data generated
    if filled.2.isEmpty then return false
    match ← updateSecret { sec with data := filled.1 } with
    | .ok _ => return false
    -- the source says to adopt what is there now, and leaves the files as they are
    | .error .conflict => return true
    | .error e => throw (.completeSecret e)

def bootLabels : StrMap String :=
  ((Finmap.insert "app.kubernetes.io/name" "prometheus-mcp-fleet" ∅ : StrMap String).insert
    "app.kubernetes.io/component" "hub").insert
    "app.kubernetes.io/managed-by" "prometheus-mcp-hub"

def firstSecret (cert key pepper : Bytes) : Secret Bytes :=
  { resourceVersion := 0, data := (fill ∅ (generatedData cert key pepper)).1
    labels := bootLabels, annotations := ∅ }

/-- `bootstrapper.persist`: the files after it, and whether they are those of
another replica now. -/
def persist (stored : CaMaterial) (f : Files) (pepper : Bytes) : Boot (Files × Bool) := do
  if stored.complete then return (f, false)
  disk
  match f.cert, f.key with
  | some cert, some key =>
    if !stored.empty then return (f, ← complete stored (generatedData cert key pepper))
    match ← createSecret (firstSecret cert key pepper) with
    | .ok _ => return (f, false)
    | .error .alreadyExists =>
      let winner ← load P
      if winner.empty then throw .secretEmpty
      return (← materialise winner f, true)
    | .error e => throw (.createSecret e)
  | _, _ => throw .disk

/-- `bootstrapper.prepare` at a replica whose configuration names the bundle. -/
def prepare (bundle : Option Bytes) : Boot (Authority × Bytes) := do
  disk
  let stored ← load P
  let f ← materialise stored { cert := none, key := none, pepper := none }
  let base ← readTrustBundle P bundle
  let (f, authority) ← loadOrCreate P (P.joinRootsPEM base stored.extraRoots) f
  let (f, pepper) ← loadPepper f
  let (f, adopted) ← persist P stored f pepper
  if adopted then
    let base ← readTrustBundle P bundle
    let authority ← loadCA P base f
    let (_, pepper) ← loadPepper f
    return (authority, pepper)
  return (authority, pepper)

/-! ## The system -/

/-- What the server holds at first. -/
def serverOf (start : Option (Secret Bytes)) : Server :=
  match start with
  | none => []
  | some sec => [{ secret := sec, note := () }]

/-- Each replica runs `prepare` with the trust bundle of its configuration. -/
def bootSystem {ι : Type} (P : Packages) (start : Option (Secret Bytes))
    (bundle : ι → Option Bytes) : Conf BootAns ι Server (Except PrepareErr (Authority × Bytes)) :=
  { shared := serverOf start, thread := fun i => (prepare P (bundle i)).run }

end prom_fleet.hub
