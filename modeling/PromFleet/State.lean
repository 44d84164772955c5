-- The persisted document: the key records, the certificate revocation list and the revocation
-- epoch, with the mutations that all backends share. A Go map is a finite map here, and a loop
-- over one takes the order of its visits. Every value is copied, so `cloneKey` is the identity.
import PromFleet.Identity
import PromFleet.MapRange
import Mathlib.Data.String.Basic

namespace prom_fleet.store

open fleet map_range

/-! ## The document -/

structure KeyRecord where
  v : Int
  key : Key
  secretHMAC : Bytes
  deriving DecidableEq

structure RevokedCert where
  serial : String
  revokedAt : Int
  notAfter : Int
  reason : String
  deriving DecidableEq

/-- `store.State`. The epoch is a `uint64` in the source. It is counted here without its wrap, so
what compares epochs is about runs with fewer than `2 ^ 64` of them. -/
structure State where
  schemaVersion : Int
  epoch : Nat
  keys : StrMap KeyRecord
  revokedCerts : StrMap RevokedCert
  deriving DecidableEq

def SchemaVersion : Int := 1

def newState : State :=
  { schemaVersion := SchemaVersion, epoch := 0, keys := ∅, revokedCerts := ∅ }

/-! ## Errors -/

/-- The sentinel errors that a caller matches with `errors.Is`. -/
inductive Sentinel where
  | notFound
  | alreadyExists
  | revoked
  | enrollmentUsed
  | stateTooLarge
  | wrongClass
  | notUsable
  | invalid
  | corrupt
  | schemaTooNew
  deriving DecidableEq, Repr

/-- The errors of the document, one for each message of the source, with the
values that the message prints. -/
inductive Err where
  | keyIsNil
  | keyHasNoKid
  | keyHasClass (kid : String) (cls : KeyClass)
  | keyExists (kid : String)
  | keyNotFound (kid : String)
  | alreadyRevoked (kid reason : String)
  | noSerial (kid : String)
  | enrollmentNotFound (kid : String)
  | notEnrollment (kid : String) (cls : KeyClass)
  | notUsable (kid : String)
  | redeemedTimes (kid : String) (redemptions : Int)
  | redeemedAt (kid : String) (usedAt : Int) (certSerial : String)
  | certHasNoSerial
  | negativeRetain
  | decodeState (cause : String)
  | versionTooNew (version target : Int)
  | noMigration (version : Int)
  | tooLarge (size max : Int) (keys revokedCerts : Nat)
  deriving DecidableEq

/-- The sentinel that the error wraps. -/
def Err.sentinel : Err → Sentinel
  | .keyIsNil | .keyHasNoKid | .keyHasClass _ _ => .invalid
  | .keyExists _ => .alreadyExists
  | .keyNotFound _ => .notFound
  | .alreadyRevoked _ _ => .revoked
  | .noSerial _ => .invalid
  | .enrollmentNotFound _ => .notFound
  | .notEnrollment _ _ => .wrongClass
  | .notUsable _ => .notUsable
  | .redeemedTimes _ _ | .redeemedAt _ _ _ => .enrollmentUsed
  | .certHasNoSerial | .negativeRetain => .invalid
  | .decodeState _ | .noMigration _ => .corrupt
  | .versionTooNew _ _ => .schemaTooNew
  | .tooLarge _ _ _ _ => .stateTooLarge

/-- What a mutation did: whether the document changed, the document after it,
and what it returns beside that. -/
structure Applied (β : Type) where
  changed : Bool
  state : State
  result : β

/-! ## Keys -/

def bump (s : State) : State := { s with epoch := s.epoch + 1 }

variable (kid : String)

/-- `s.Keys[kid] = r`. -/
def setRecord (r : KeyRecord) (s : State) : State :=
  { s with keys := s.keys.insert kid r }

/-- `s.RevokedCerts[serial] = rc`. -/
def setCert (serial : String) (rc : RevokedCert) (s : State) : State :=
  { s with revokedCerts := s.revokedCerts.insert serial rc }

def validateKey : Option Key → Except Err Key
  | none => .error .keyIsNil
  | some k =>
    if k.kid = "" then .error .keyHasNoKid
    else if !k.cls.valid then .error (.keyHasClass k.kid k.cls)
    else .ok k

variable (r : KeyRecord)

/-- The domain key with the digest of its record. -/
def KeyRecord.value : Key := { r.key with secretHMAC := r.secretHMAC }

@[simp] theorem KeyRecord.value_revoked : r.value.revoked = r.key.revoked := rfl

@[simp] theorem KeyRecord.value_expired (t : Int) :
    r.value.expired t = r.key.expired t := rfl

def KeyRecord.revoke (when_ : Int) (reason : String) : KeyRecord :=
  { r with key := { r.key with revokedAt := some when_, revokedReason := reason } }

/-- The record after a use. -/
def KeyRecord.touch (when_ : Int) : KeyRecord :=
  { r with key := { r.key with lastUsed := some when_ } }

variable (g : EnrollmentGrant)

def KeyRecord.regrant : KeyRecord :=
  { r with key := { r.key with enrollment := some g } }

/-- The record of a key. The digest lives in the record's own field only. -/
def recordOf (k : Key) : KeyRecord :=
  { v := SchemaVersion, key := { k with secretHMAC := [] }, secretHMAC := k.secretHMAC }

/-- The inner `putKey` of the source. -/
def putRecord (k : Key) (s : State) : State := setRecord k.kid (recordOf k) s

def putKey (k? : Option Key) (s : State) : Except Err (Applied Unit) :=
  match validateKey k? with
  | .error e => .error e
  | .ok k =>
    match s.keys.lookup k.kid with
    | some _ => .error (.keyExists k.kid)
    | none => .ok { changed := true, state := bump (putRecord k s), result := () }

def putKeyIfNoUsable (k? : Option Key) (at_ : Int) (s : State) : Except Err (Applied Unit) :=
  match validateKey k? with
  | .error e => .error e
  | .ok k =>
    if ((s.keys.lookup k.kid).map fun r => r.value.usable at_) = some true then
      .ok { changed := false, state := s, result := () }
    else .ok { changed := true, state := bump (putRecord k s), result := () }

def getKey (s : State) : Except Err Key :=
  match s.keys.lookup kid with
  | none => .error (.keyNotFound kid)
  | some r => .ok r.value

/-- The order of `ListKeys`: ascending `CreatedAt`, then ascending KID. -/
def listsBefore (a b : Key) : Prop :=
  a.createdAt < b.createdAt ∨ a.createdAt = b.createdAt ∧ a.kid ≤ b.kid

instance : DecidableRel listsBefore := fun a b =>
  inferInstanceAs
    (Decidable (a.createdAt < b.createdAt ∨ a.createdAt = b.createdAt ∧ a.kid ≤ b.kid))

/-- `State.ListKeys`. The sort of the source leaves the order of equal keys
open, as the order of the visits does here. -/
def listKeys (r : Range String KeyRecord) (cls : KeyClass) (s : State) : List Key :=
  (((r.list s.keys).filter fun e => decide (cls = .unknown "") || decide (e.2.key.cls = cls)).map
    fun e => e.2.value).insertionSort listsBefore

/-- The time of an operation: `at`, or the clock if `at` is the zero time. -/
def whenOf (at_ now : Int) : Int := if isZero at_ then now else at_

def revokeKey (kid reason : String) (at_ now : Int) (s : State) : Except Err (Applied Unit) :=
  match s.keys.lookup kid with
  | none => .error (.keyNotFound kid)
  | some r =>
    match r.key.revokedAt with
    | some _ => .ok { changed := false, state := s, result := () }
    | none =>
      let revoked := r.revoke (whenOf at_ now) reason
      .ok { changed := true, state := bump (setRecord kid revoked s), result := () }

def replaceKey (fresh : Option Key) (oldKID reason : String) (at_ now : Int) (s : State) :
    Except Err (Applied Unit) :=
  match s.keys.lookup oldKID with
  | none => .error (.keyNotFound oldKID)
  | some old =>
    match old.key.revokedAt with
    | some _ => .error (.alreadyRevoked oldKID old.key.revokedReason)
    | none =>
      match putKey fresh s with
      | .error e => .error e
      | .ok put =>
        let revoked := old.revoke (whenOf at_ now) reason
        .ok { changed := true, state := setRecord oldKID revoked put.state, result := () }

def deleteKey (s : State) : Except Err (Applied Unit) :=
  match s.keys.lookup kid with
  | none => .error (.keyNotFound kid)
  | some _ =>
    .ok { changed := true, state := bump { s with keys := s.keys.erase kid }, result := () }

def touchKey (at_ now : Int) (s : State) : Except Err (Applied Unit) :=
  match s.keys.lookup kid with
  | none => .error (.keyNotFound kid)
  | some r =>
    .ok { changed := true, state := setRecord kid (r.touch (whenOf at_ now)) s, result := () }

/-! ## Enrollment -/

/-- The grant after one more redemption. -/
def EnrollmentGrant.redeemed (when_ : Int) (certSerial : String) :
    EnrollmentGrant :=
  { g with usedAt := some when_, certSerial := certSerial, redemptions := g.redemptions + 1 }

/-- Why the grant cannot be redeemed once more, if it cannot. -/
def EnrollmentGrant.spent (kid : String) : Option Err :=
  if g.reusable then
    if g.maxRedemptions > 0 ∧ g.redemptions ≥ g.maxRedemptions then
      some (.redeemedTimes kid g.redemptions)
    else none
  else
    match g.usedAt with
    | some t => some (.redeemedAt kid t g.certSerial)
    | none => none

def burnEnrollment (kid certSerial : String) (at_ now : Int) (s : State) :
    Except Err (Applied Key) :=
  if certSerial = "" then .error (.noSerial kid)
  else
    match s.keys.lookup kid with
    | none => .error (.enrollmentNotFound kid)
    | some r =>
      match r.key.enrollment with
      | none => .error (.notEnrollment kid r.key.cls)
      | some g =>
        if r.key.cls ≠ .enrollment then .error (.notEnrollment kid r.key.cls)
        else if !r.key.usable (whenOf at_ now) then .error (.notUsable kid)
        else
          match EnrollmentGrant.spent g kid with
          | some e => .error e
          | none =>
            let burned := r.regrant (EnrollmentGrant.redeemed g (whenOf at_ now) certSerial)
            .ok { changed := true, state := bump (setRecord kid burned s), result := burned.value }

/-! ## Revoked certificates -/

def revokeCert (rc : RevokedCert) (now : Int) (s : State) : Except Err (Applied Unit) :=
  if rc.serial = "" then .error .certHasNoSerial
  else
    let rc := { rc with revokedAt := whenOf rc.revokedAt now }
    .ok { changed := true, state := bump (setCert rc.serial rc s), result := () }

def certsBefore (a b : RevokedCert) : Prop := a.serial ≤ b.serial

instance : DecidableRel certsBefore := fun a b => inferInstanceAs (Decidable (a.serial ≤ b.serial))

def listRevokedCerts (r : Range String RevokedCert) (s : State) : List RevokedCert :=
  ((r.list s.revokedCerts).map fun e => e.2).insertionSort certsBefore

/-! ## Pruning -/

structure PruneResult where
  keys : Nat
  revokedCerts : Nat
  deriving DecidableEq, Repr

def PruneResult.empty (p : PruneResult) : Bool :=
  decide (p.keys = 0) && decide (p.revokedCerts = 0)

/-- The cluster whose labels the record can decide. -/
def labelCluster (k : Key) : Option String :=
  if k.cls ≠ .enrollment then none
  else
    match k.enrollment with
    | none => none
    | some g => if k.revoked then none else some g.clusterID

/-- `k` takes the place of `cur` as the newest record of its cluster. -/
def supersedes (k cur : Key) : Bool :=
  decide (k.createdAt > cur.createdAt) ||
    (decide (k.createdAt = cur.createdAt) && decide (k.kid < cur.kid))

/-- The orders of the four loops of a prune. -/
structure PruneOrder where
  certs : Range String RevokedCert
  scan : Range String KeyRecord
  newest : Range String Key
  keys : Range String KeyRecord

def newestRecords (r : Range String KeyRecord) (s : State) : StrMap Key :=
  bestOf labelCluster supersedes ((r.list s.keys).map fun e => e.2.key)

/-- `State.labelAuthorities`, as the list of the KIDs that map to true. -/
def labelAuthorities (o : PruneOrder) (s : State) : List String :=
  (o.newest.list (newestRecords o.scan s)).map fun e => e.2.kid

/-- The revocation entry ended more than `retain` ago. -/
def certLapsed (now retain : Int) (rc : RevokedCert) : Bool :=
  !isZero rc.notAfter && decide (rc.notAfter + retain < now)

/-- The key expired more than `retain` ago. -/
def keyLapsed (now retain : Int) (r : KeyRecord) : Bool :=
  !isZero r.key.expiresAt && decide (r.key.expiresAt + retain < now)

def prune (o : PruneOrder) (now retain : Int) (s : State) : Except Err (Applied PruneResult) :=
  if retain < 0 then .error .negativeRetain
  else
    let certs := sweep (fun _ rc => certLapsed now retain rc) (o.certs.list s.revokedCerts)
      (s.revokedCerts, 0)
    let authority := labelAuthorities o s
    let keys := sweep (fun kid r => keyLapsed now retain r && !decide (kid ∈ authority))
      (o.keys.list s.keys) (s.keys, 0)
    let res : PruneResult := { keys := keys.2, revokedCerts := certs.2 }
    .ok { changed := !res.empty
          state := { s with keys := keys.1, revokedCerts := certs.1 }
          result := res }

/-! ## What each operation does -/

section Cases

variable {s : State} {a : Applied Unit} {k? : Option Key}

theorem validateKey_ok {k : Key} (h : validateKey k? = .ok k) :
    k? = some k ∧ k.kid ≠ "" ∧ k.cls.valid = true := by
  unfold validateKey at h
  split at h
  · cases h
  split at h
  · cases h
  rename_i hkid
  split at h
  · cases h
  rename_i hcls
  cases h
  exact ⟨rfl, hkid, by simpa using hcls⟩

theorem putKey_cases (h : putKey k? s = .ok a) :
    ∃ k, k? = some k ∧ s.keys.lookup k.kid = none ∧ a.changed = true ∧
      a.state = bump (putRecord k s) := by
  unfold putKey at h
  split at h
  · cases h
  rename_i k hk
  split at h
  · cases h
  rename_i hnone
  cases h
  exact ⟨k, (validateKey_ok hk).1, hnone, rfl, rfl⟩

variable {at_ : Int}

theorem putKeyIfNoUsable_cases (h : putKeyIfNoUsable k? at_ s = .ok a) :
    (a.changed = false ∧ a.state = s) ∨
      ∃ k, k? = some k ∧ a.changed = true ∧ a.state = bump (putRecord k s) ∧
        ∀ r, s.keys.lookup k.kid = some r → r.value.usable at_ = false := by
  unfold putKeyIfNoUsable at h
  split at h
  · cases h
  rename_i k hk
  split at h
  · cases h
    exact .inl ⟨rfl, rfl⟩
  rename_i hunusable
  cases h
  refine .inr ⟨k, (validateKey_ok hk).1, rfl, rfl, fun r hr => ?_⟩
  rw [hr, Option.map_some, Option.some.injEq] at hunusable
  exact Bool.eq_false_iff.mpr hunusable

variable {kid reason : String} {now : Int}

theorem revokeKey_cases (h : revokeKey kid reason at_ now s = .ok a) :
    (a.changed = false ∧ a.state = s) ∨
      ∃ r, s.keys.lookup kid = some r ∧ a.changed = true ∧
        a.state = bump (setRecord kid (r.revoke (whenOf at_ now) reason) s) := by
  unfold revokeKey at h
  split at h
  · cases h
  rename_i r hr
  split at h
  · cases h
    exact .inl ⟨rfl, rfl⟩
  · cases h
    exact .inr ⟨r, hr, rfl, rfl⟩

theorem replaceKey_cases {fresh : Option Key} {oldKID : String}
    (h : replaceKey fresh oldKID reason at_ now s = .ok a) :
    ∃ k old, fresh = some k ∧ s.keys.lookup k.kid = none ∧ s.keys.lookup oldKID = some old ∧
      a.changed = true ∧
      a.state = setRecord oldKID (old.revoke (whenOf at_ now) reason) (bump (putRecord k s)) := by
  unfold replaceKey at h
  split at h
  · cases h
  rename_i old hold
  split at h
  · cases h
  split at h
  · cases h
  rename_i put hput
  obtain ⟨k, hk, hnone, _, hs⟩ := putKey_cases hput
  cases h
  exact ⟨k, old, hk, hnone, hold, rfl, by rw [hs]⟩

theorem deleteKey_cases (h : deleteKey kid s = .ok a) :
    a.changed = true ∧ a.state = bump { s with keys := s.keys.erase kid } := by
  unfold deleteKey at h
  split at h
  · cases h
  · cases h
    exact ⟨rfl, rfl⟩

theorem touchKey_cases (h : touchKey kid at_ now s = .ok a) :
    ∃ r, s.keys.lookup kid = some r ∧ a.changed = true ∧
      a.state = setRecord kid (r.touch (whenOf at_ now)) s := by
  unfold touchKey at h
  split at h
  · cases h
  rename_i r hr
  cases h
  exact ⟨r, hr, rfl, rfl⟩

theorem burnEnrollment_cases {certSerial : String} {b : Applied Key}
    (h : burnEnrollment kid certSerial at_ now s = .ok b) :
    ∃ r g, s.keys.lookup kid = some r ∧ r.key.cls = .enrollment ∧ r.key.enrollment = some g ∧
      r.key.usable (whenOf at_ now) = true ∧ EnrollmentGrant.spent g kid = none ∧
      b.changed = true ∧
      b.state = bump
        (setRecord kid (r.regrant (EnrollmentGrant.redeemed g (whenOf at_ now) certSerial)) s) := by
  unfold burnEnrollment at h
  split at h
  · cases h
  split at h
  · cases h
  rename_i r hr
  split at h
  · cases h
  rename_i g hg
  split at h
  · cases h
  rename_i hcls
  split at h
  · cases h
  rename_i huse
  split at h
  · cases h
  rename_i hspent
  cases h
  exact ⟨r, g, hr, by simpa using hcls, hg, by simpa using huse, hspent, rfl, rfl⟩

theorem revokeCert_cases {rc : RevokedCert} (h : revokeCert rc now s = .ok a) :
    rc.serial ≠ "" ∧ a.changed = true ∧
      a.state = bump (setCert rc.serial { rc with revokedAt := whenOf rc.revokedAt now } s) := by
  unfold revokeCert at h
  split at h
  · cases h
  rename_i hserial
  cases h
  exact ⟨hserial, rfl, rfl⟩

theorem prune_cases {o : PruneOrder} {retain : Int} {b : Applied PruneResult}
    (h : prune o now retain s = .ok b) : 0 ≤ retain ∧ b.state.epoch = s.epoch ∧
      (∀ kid, b.state.keys.lookup kid = (s.keys.lookup kid).filter fun r =>
        !(keyLapsed now retain r && !decide (kid ∈ labelAuthorities o s))) ∧
      ∀ serial, b.state.revokedCerts.lookup serial = (s.revokedCerts.lookup serial).filter fun rc =>
        !certLapsed now retain rc := by
  unfold prune at h
  split at h
  · cases h
  rename_i hr
  cases h
  refine ⟨by omega, rfl, fun kid => ?_, fun serial => ?_⟩
  · exact lookup_sweep o.keys _ s.keys kid
  · exact lookup_sweep o.certs _ s.revokedCerts serial

end Cases

/-! ## The operations as one type -/

/-- A mutation of the document with its arguments. -/
inductive Op where
  | putKey (k : Option Key)
  | putKeyIfNoUsable (k : Option Key) (at_ : Int)
  | revokeKey (kid reason : String) (at_ : Int)
  | replaceKey (fresh : Option Key) (oldKID reason : String) (at_ : Int)
  | deleteKey (kid : String)
  | touchKey (kid : String) (at_ : Int)
  | burnEnrollment (kid certSerial : String) (at_ : Int)
  | revokeCert (rc : RevokedCert)
  | prune (order : PruneOrder) (retain : Int)

/-- What an operation returns beside the document. -/
inductive Reply where
  | unit
  | key (k : Key)
  | pruned (p : PruneResult)

def Applied.reply {β : Type} (f : β → Reply) (a : Applied β) : Applied Reply :=
  { changed := a.changed, state := a.state, result := f a.result }

@[simp] theorem Applied.reply_state {β : Type} (f : β → Reply) (a : Applied β) :
    (a.reply f).state = a.state := rfl

/-- The operation at the clock reading `now`. -/
def Op.apply (now : Int) (s : State) : Op → Except Err (Applied Reply)
  | .putKey k => (store.putKey k s).map (.reply fun _ => .unit)
  | .putKeyIfNoUsable k at_ => (store.putKeyIfNoUsable k at_ s).map (.reply fun _ => .unit)
  | .revokeKey kid reason at_ => (store.revokeKey kid reason at_ now s).map (.reply fun _ => .unit)
  | .replaceKey fresh oldKID reason at_ =>
    (store.replaceKey fresh oldKID reason at_ now s).map (.reply fun _ => .unit)
  | .deleteKey kid => (store.deleteKey kid s).map (.reply fun _ => .unit)
  | .touchKey kid at_ => (store.touchKey kid at_ now s).map (.reply fun _ => .unit)
  | .burnEnrollment kid certSerial at_ =>
    (store.burnEnrollment kid certSerial at_ now s).map (.reply .key)
  | .revokeCert rc => (store.revokeCert rc now s).map (.reply fun _ => .unit)
  | .prune order retain => (store.prune order now retain s).map (.reply .pruned)

end prom_fleet.store
