-- The CA rotation of the hub: a poll of `caRotator` reads the CA Secret, adopts what
-- it says, plans at most one write and makes it with the version that it has read.
-- Any number of replicas poll at once, and other writers change the Secret too.
import Mathlib.Data.List.DropRight
import PromFleet.Compose
import PromFleet.GoTime
import PromFleet.KubeSecret

namespace prom_fleet.rotation

open interleave gotime kube

/-! ## The Secret -/

def ascii (s : String) : Bytes := s.toList.map fun c => c.toNat.toUInt8

def secretKeyCACert : String := "ca.crt"
def secretKeyCAKey : String := "ca.key"
def secretKeyCANextCert : String := "ca-next.crt"
def secretKeyCANextKey : String := "ca-next.key"
def secretKeyCAPrevCert : String := "ca-previous.crt"
def secretKeyRotationPhase : String := "ca-rotation.phase"
def secretKeyRotationSince : String := "ca-rotation.since"
def secretKeyRotationHoldout : String := "ca-rotation.last-holdout"
def secretKeyRotationRetireAfter : String := "ca-rotation.retire-after"

def annotationRotateNow : String := "promfleet.io/rotate-now"
def annotationRotateAccepted : String := "promfleet.io/rotate-accepted"

/-- The keys that only the rotation writes once the CA is there. -/
def rotationKeys : List String :=
  [secretKeyCACert, secretKeyCAKey, secretKeyCANextCert, secretKeyCANextKey, secretKeyCAPrevCert,
    secretKeyRotationPhase, secretKeyRotationSince, secretKeyRotationHoldout,
    secretKeyRotationRetireAfter]

/-- The field of the Secret. A key that is missing in a Go map reads as nil. -/
def field (k : String) (sec : Secret Bytes) : Bytes := (sec.data.lookup k).getD []

inductive CaPhase where
  | steady
  | publishing
  | signing
  deriving DecidableEq, Repr

def CaPhase.text : CaPhase → Bytes
  | .steady => ascii "steady"
  | .publishing => ascii "publishing"
  | .signing => ascii "signing"

def caPhases : List CaPhase := [.steady, .publishing, .signing]

def knownPhase (raw : Bytes) : Option CaPhase := caPhases.find? fun p => p.text = raw

/-! ## The packages that the rotation rests on -/

/-- What the rotation uses of `time`, `encoding/pem`, `crypto/x509` and `ca`. -/
structure Toolkit (Cert Key : Type) where
  /-- `t.UTC().Format(time.RFC3339)`. -/
  formatTime : Int → Bytes
  /-- `time.Parse(time.RFC3339, text)`. -/
  parseTime : Bytes → Option Int
  /-- The PEM blocks of the text in order, each as the certificate that it holds. -/
  blocks : Bytes → List (Option Cert)
  /-- `caSigningDefect` finds none. -/
  signsCerts : Cert → Bool
  /-- `parsePrivateKeyPEM`. -/
  privateKey : Bytes → Option Key
  /-- The key is the private half of the key in the certificate. -/
  keyMatches : Cert → Key → Bool
  notBefore : Cert → Int
  notAfter : Cert → Int
  /-- The PEM texts of a new root, for what the random generator gives. -/
  newRootPEM : Nat → Bytes × Bytes

variable {Cert Key : Type}

/-- `unicode.IsSpace` on ASCII. -/
def isSpace (b : UInt8) : Bool := b = 32 || (9 ≤ b && b ≤ 13)

/-- `len(bytes.TrimSpace(b)) == 0`. -/
def isBlank (b : Bytes) : Bool := b.all isSpace

/-- `bytes.TrimRight(b, "\n")`. -/
def trimNewlines (b : Bytes) : Bytes := b.rdropWhile fun c => c = 10

def joinRootsPEM (a b : Bytes) : Bytes :=
  if isBlank a then b
  else if isBlank b then a
  else trimNewlines a ++ [10] ++ b

section Authority

variable (K : Toolkit Cert Key)

/-- `parseCertificatePEM`: the text holds one block, a certificate. -/
def parseCertificatePEM (pem : Bytes) : Option Cert :=
  match K.blocks pem with
  | [some c] => some c
  | _ => none

def parseTrustBundlePEM (pem : Bytes) : Option (List Cert) :=
  match (K.blocks pem).mapM fun b => b.filter K.signsCerts with
  | some (c :: cs) => some (c :: cs)
  | _ => none

/-- `Options.additionalRoots`. -/
def parseAdditionalRoots (pem : Bytes) : Option (List Cert) :=
  if isBlank pem then some [] else parseTrustBundlePEM K pem

/-- `caMaterial`: the signer and all the roots that are trusted. -/
structure CaMaterial (Cert Key : Type) where
  cert : Cert
  key : Key
  roots : List Cert

/-- `CA.AdoptPEM`: the material that is stored, if every part of it is fit. -/
def adoptPEM (certPEM keyPEM rootsPEM : Bytes) : Option (CaMaterial Cert Key) := do
  let cert ← parseCertificatePEM K certPEM
  let key ← K.privateKey keyPEM
  if !(K.signsCerts cert && K.keyMatches cert key) then none
  let additional ← parseAdditionalRoots K rootsPEM
  return { cert := cert, key := key, roots := cert :: additional }

end Authority

/-! ## The Secret read as a rotation -/

structure CaRotationState where
  rawPhase : Bytes
  phase : CaPhase
  phaseKnown : Bool
  since : Int
  sinceOK : Bool
  certPEM : Bytes
  keyPEM : Bytes
  nextCertPEM : Bytes
  nextKeyPEM : Bytes
  prevCertPEM : Bytes
  lastHoldout : Int
  hasHoldout : Bool
  retireAfter : Int
  hasRetireAfter : Bool
  force : String

variable (K : Toolkit Cert Key)

def readCARotation (sec : Secret Bytes) : CaRotationState :=
  { rawPhase := field secretKeyRotationPhase sec
    phase := (knownPhase (field secretKeyRotationPhase sec)).getD .steady
    phaseKnown := (knownPhase (field secretKeyRotationPhase sec)).isSome
    since := (K.parseTime (field secretKeyRotationSince sec)).getD 0
    sinceOK := (K.parseTime (field secretKeyRotationSince sec)).isSome
    certPEM := field secretKeyCACert sec
    keyPEM := field secretKeyCAKey sec
    nextCertPEM := field secretKeyCANextCert sec
    nextKeyPEM := field secretKeyCANextKey sec
    prevCertPEM := field secretKeyCAPrevCert sec
    lastHoldout := (K.parseTime (field secretKeyRotationHoldout sec)).getD 0
    hasHoldout := !(field secretKeyRotationHoldout sec).isEmpty
    retireAfter := (K.parseTime (field secretKeyRotationRetireAfter sec)).getD 0
    hasRetireAfter := !(field secretKeyRotationRetireAfter sec).isEmpty
    force := (sec.annotations.lookup annotationRotateNow).getD "" }

variable (st : CaRotationState)

/-- The Secret names a phase that this build does not know. -/
def CaRotationState.unknown : Bool :=
  !st.rawPhase.isEmpty && !st.phaseKnown

/-- `caRotationState.additionalRoots`. -/
def CaRotationState.additionalRoots (base : Bytes) : Bytes :=
  if st.unknown then joinRootsPEM (joinRootsPEM base st.nextCertPEM) st.prevCertPEM
  else
    match st.phase with
    | .publishing => joinRootsPEM base st.nextCertPEM
    | .signing => joinRootsPEM base st.prevCertPEM
    | .steady => joinRootsPEM base []

/-! ## The rotator -/

/-- The settings that `Hub.Validate` lets pass. `rotateAtRemaining` multiplies by the
configured fraction. -/
structure Config where
  spokeCertTTL : Int
  renewGrace : Int
  pollInterval : Int
  rotateAtRemaining : Int → Int
  ttl_pos : 0 < spokeCertTTL
  ttl_le : spokeCertTTL ≤ maxDuration
  grace_nonneg : 0 ≤ renewGrace
  grace_le : renewGrace ≤ maxDuration
  poll_pos : 0 < pollInterval
  poll_le : pollInterval ≤ maxDuration

variable (cfg : Config)

/-- `Hub.CARotationRunway`. -/
def Config.caRotationRunway : Int :=
  wrap64 (2 * cfg.spokeCertTTL + cfg.renewGrace + 4 * cfg.pollInterval)

/-- `caRotator.retirementHold`. -/
def Config.retirementHold : Int :=
  wrap64 (cfg.spokeCertTTL + cfg.renewGrace + 2 * cfg.pollInterval)

/-- `caRotator.holdoutQuiet`. -/
def Config.holdoutQuiet : Int := wrap64 (2 * cfg.pollInterval)

/-- `caRotator`: what a replica knows at the start of a poll. -/
structure CaRotator (Cert Key : Type) where
  cfg : Config
  base : Bytes
  authority : CaMaterial Cert Key
  startedAt : Int
  appliedCert : Bytes
  appliedRoots : Bytes

/-- `caRotationPlan`. The reading of a promotion is no part of the write: the laws are
about it. -/
structure CaRotationPlan where
  target : CaPhase
  keepSince : Bool := false
  set : List (String × Bytes) := []
  del : List String := []
  consumeForce : Bool := false
  promotedAt : Option Int := none

/-- Who has written a version: another writer, or a rotator with these settings. -/
inductive Writer where
  | other
  | rotator (cfg : Config) (promotedAt : Option Int)

/-- The writer of a version, and the clock when it was stored. -/
structure Note where
  writer : Writer
  committed : Int

abbrev Server := List (Version Bytes Note)

/-! ## Operations -/

/-- What the environment decides at a step: the clock, the faults of the network, the
next resource version, the random generator and the sessions of the replica. -/
structure RotEnv where
  now : Int
  fault : Fault
  gap : Nat
  seed : Option Nat
  holdouts : Nat

inductive RotOp (Cert : Type) where
  | getSecret
  | clock
  | holdoutsOn (root : Option Cert)
  | newRootPEM
  | updateSecret (sec : Secret Bytes) (writer : Writer)
  | edit (sec : Secret Bytes)

abbrev RotAns : RotOp Cert → Type
  | .getSecret => Except Err (Secret Bytes)
  | .clock => Int
  | .holdoutsOn _ => Nat
  | .newRootPEM => Option (Bytes × Bytes)
  | .updateSecret _ _ => Except Err (Secret Bytes)
  | .edit _ => Unit

/-- The Secret after a write of another writer, which leaves the keys of the rotation
as they are. -/
def edited (sec cur : Secret Bytes) : Option (Secret Bytes) :=
  if rotationKeys.all fun k => decide (field k sec = field k cur) then
    some { sec with resourceVersion := cur.resourceVersion }
  else none

def rotAct :
    (o : RotOp Cert) → RotEnv → Server → Option (RotAns o × Server)
  | .getSecret, e, s => some ((deliver e.fault s (getSecret s, s)).1, s)
  | .clock, e, s => some (e.now, s)
  | .holdoutsOn _, e, s => some (e.holdouts, s)
  | .newRootPEM, e, s => some (e.seed.map K.newRootPEM, s)
  | .updateSecret sec writer, e, s =>
    some (deliver e.fault s (updateSecret e.gap ⟨writer, e.now⟩ sec s))
  | .edit sec, e, s =>
    match current s with
    | none => none
    | some cur =>
      (edited sec cur).map fun new => ((), (updateSecret e.gap ⟨.other, e.now⟩ new s).2)

/-- The API server beside one clock that does not go back. -/
def rotMachine {ι : Type} (K : Toolkit Cert Key) : Machine (@RotAns Cert) ι RotEnv (Int × Server) :=
  Machine.clocked ⟨fun _ o e s => rotAct K o e s⟩ RotEnv.now

abbrev Rot (Cert α : Type) := Prog (@RotAns Cert) α

abbrev getSecret : Rot Cert (Except Err (Secret Bytes)) := Prog.call RotOp.getSecret
abbrev clock : Rot Cert Int := Prog.call RotOp.clock
abbrev holdoutsOn (root : Option Cert) : Rot Cert Nat := Prog.call (RotOp.holdoutsOn root)
abbrev newRootPEM : Rot Cert (Option (Bytes × Bytes)) := Prog.call RotOp.newRootPEM
abbrev updateSecret (sec : Secret Bytes) (writer : Writer) :
    Rot Cert (Except Err (Secret Bytes)) := Prog.call (RotOp.updateSecret sec writer)

/-! ## The plan -/

inductive StepErr where
  | readSecret (e : Err)
  | adopt
  | mintRoot
  | record (e : Err)
  deriving DecidableEq

def strayRotationKeys : List String :=
  ([(secretKeyCANextCert, !st.nextCertPEM.isEmpty), (secretKeyCANextKey, !st.nextKeyPEM.isEmpty),
    (secretKeyCAPrevCert, !st.prevCertPEM.isEmpty), (secretKeyRotationHoldout, st.hasHoldout),
    (secretKeyRotationRetireAfter, st.hasRetireAfter)].filter fun e => e.2).map fun e => e.1

def rotationScratchKeys : List String :=
  [secretKeyCANextCert, secretKeyCANextKey, secretKeyRotationHoldout, secretKeyRotationRetireAfter]

variable (r : CaRotator Cert Key)

/-- `caRotator.rotationDue`. The clock is not read when an operator has asked. -/
def rotationDue (st : CaRotationState) :
    Rot Cert Bool := do
  if st.force ≠ "" then return true
  let now ← clock
  let cert := r.authority.cert
  let remaining := timeSub (K.notAfter cert) now
  let total := timeSub (K.notAfter cert) (K.notBefore cert)
  return decide (remaining ≤ max (r.cfg.rotateAtRemaining total) r.cfg.caRotationRunway)

/-- `caRotator.planSteady`. -/
def planSteady (st : CaRotationState) :
    Rot Cert (Except StepErr (Option CaRotationPlan)) := do
  if strayRotationKeys st ≠ [] then
    return .ok (some { target := .steady, keepSince := true, del := strayRotationKeys st })
  let due ← rotationDue K r st
  if !due then return .ok none
  match ← newRootPEM with
  | none => return .error .mintRoot
  | some (certPEM, keyPEM) =>
    return .ok (some
      { target := .publishing, consumeForce := decide (st.force ≠ "")
        set := [(secretKeyCANextCert, certPEM), (secretKeyCANextKey, keyPEM)] })

/-- `caRotator.repairSince`. -/
def repairSince : Option CaRotationPlan :=
  if st.sinceOK then none else some { target := st.phase }

/-- `caRotator.planPublishing`. -/
def planPublishing (st : CaRotationState) :
    Rot Cert (Option CaRotationPlan) := do
  if st.nextCertPEM.isEmpty || st.nextKeyPEM.isEmpty then
    return some { target := .steady, del := rotationScratchKeys }
  if let some plan := repairSince st then return some plan
  let now ← clock
  if timeSub now st.since < r.cfg.spokeCertTTL ∧ now < K.notAfter r.authority.cert then
    return none
  let retireAfter := now + r.cfg.retirementHold
  return some
    { target := .signing
      set := [(secretKeyCACert, st.nextCertPEM), (secretKeyCAKey, st.nextKeyPEM),
        (secretKeyCAPrevCert, st.certPEM),
        (secretKeyRotationRetireAfter, K.formatTime retireAfter)]
      del := [secretKeyCANextCert, secretKeyCANextKey, secretKeyRotationHoldout]
      promotedAt := some now }

/-- The root that `outgoingFingerprint` names. -/
def outgoingRoot : Option Cert :=
  if st.phase = .signing then (parseTrustBundlePEM K st.prevCertPEM).bind List.head? else none

/-- The instant before which `planSigning` decides nothing. -/
def retirementGate (st : CaRotationState) : Int :=
  max (st.since + cfg.retirementHold) st.retireAfter

/-- `caRotator.planSigning`. -/
def planSigning (st : CaRotationState) :
    Rot Cert (Option CaRotationPlan) := do
  if st.prevCertPEM.isEmpty then
    return some { target := .steady, del := rotationScratchKeys }
  if let some plan := repairSince st then return some plan
  let now ← clock
  if now < retirementGate r.cfg st then return none
  if timeSub now r.startedAt < r.cfg.holdoutQuiet then return none
  let n ← holdoutsOn (outgoingRoot K st)
  if 0 < n then
    if timeSub now st.lastHoldout < r.cfg.pollInterval then return none
    return some
      { target := .signing, keepSince := true
        set := [(secretKeyRotationHoldout, K.formatTime now)] }
  if !isZero st.lastHoldout && decide (timeSub now st.lastHoldout < r.cfg.holdoutQuiet) then
    return none
  return some
    { target := .steady
      del := [secretKeyCAPrevCert, secretKeyRotationHoldout, secretKeyRotationRetireAfter] }

/-- `caRotator.plan`. -/
def plan (st : CaRotationState) :
    Rot Cert (Except StepErr (Option CaRotationPlan)) := do
  if st.unknown then return .ok none
  if st.force ≠ "" ∧ st.phase ≠ .steady then
    return .ok (some { target := st.phase, keepSince := true, consumeForce := true })
  match st.phase with
  | .steady => planSteady K r st
  | .publishing => return .ok (← planPublishing K r st)
  | .signing => return .ok (← planSigning K r st)

/-! ## The poll -/

/-- The Secret that `advance` writes for a plan. -/
def CaRotationPlan.write (p : CaRotationPlan) (now : Int)
    (sec : Secret Bytes) : Secret Bytes :=
  let data := sec.data.insert secretKeyRotationPhase p.target.text
  let data := if p.keepSince then data else data.insert secretKeyRotationSince (K.formatTime now)
  let data := p.set.foldl (fun d e => d.insert e.1 e.2) data
  let data := p.del.foldl (fun d k => d.erase k) data
  -- the text of the acceptance is the same as that of `since`, as a string
  let stamp := String.ofList ((K.formatTime now).map fun b => Char.ofNat b.toNat)
  { sec with
    data := data
    annotations :=
      if p.consumeForce then
        (sec.annotations.erase annotationRotateNow).insert annotationRotateAccepted stamp
      else sec.annotations }

/-- `caRotator.sync`, without the gauges. -/
def sync (st : CaRotationState) :
    Option (CaRotator Cert Key) :=
  let roots := st.additionalRoots r.base
  if st.certPEM = r.appliedCert ∧ roots = r.appliedRoots then some r
  else
    (adoptPEM K st.certPEM st.keyPEM roots).map fun m =>
      { r with authority := m, appliedCert := st.certPEM, appliedRoots := roots }

/-- `caRotator.advance`: the state now in force, or none if nothing was written. -/
def advance (sec : Secret Bytes)
    (st : CaRotationState) : Rot Cert (Except StepErr (Option CaRotationState)) := do
  match ← plan K r st with
  | .error e => return .error e
  | .ok none => return .ok none
  | .ok (some p) =>
    let now ← clock
    match ← updateSecret (p.write K now sec) (.rotator r.cfg p.promotedAt) with
    | .error .conflict => return .ok none
    | .error e => return .error (.record e)
    | .ok updated => return .ok (some (readCARotation K updated))

/-- `caRotator.step`: the rotator after the poll, and the error if it fails. -/
def poll :
    Rot Cert (CaRotator Cert Key × Option StepErr) := do
  match ← getSecret with
  | .error e => return (r, some (.readSecret e))
  | .ok sec =>
    let st := readCARotation K sec
    match sync K r st with
    | none => return (r, some .adopt)
    | some r =>
      match ← advance K r sec st with
      | .error e => return (r, some e)
      | .ok none => return (r, none)
      | .ok (some advanced) =>
        match sync K r advanced with
        | none => return (r, some .adopt)
        | some r => return (r, none)

/-! ## The system -/

/-- A poll of some replica, from what that replica knows, or a write of someone else. -/
inductive Request (Cert Key : Type) where
  | poll (r : CaRotator Cert Key)
  | edit (sec : Secret Bytes)

def Request.program : Request Cert Key → Rot Cert Unit
  | .poll r => do
    let _ ← rotation.poll K r
    return ()
  | .edit sec => Prog.call (RotOp.edit sec)

/-- The polls and the other writes, from the time `t` at which the server holds the
CA Secret `sec`. -/
def system {ι : Type} (K : Toolkit Cert Key) (t : Int) (sec : Secret Bytes)
    (calls : ι → Request Cert Key) : Conf (@RotAns Cert) ι (Int × Server) Unit :=
  { shared := (t, [⟨sec, ⟨.other, t⟩⟩]), thread := fun i => (calls i).program K }

end prom_fleet.rotation
