-- The first admin credential: `bootstrapAdminKey` lists the admin keys, and if none is usable
-- it mints a token, stores its record under a fixed KID and reveals the token. Any number of
-- replicas do so at once. The listing and the write are two looks at the document: the write
-- checks the record under the fixed KID again, and no other.
import PromFleet.GoTime
import PromFleet.PruneLaws
import PromFleet.SerialLaws

namespace prom_fleet.hub

open interleave kube store secretstore fleet map_range gotime

variable {ρ ι Blob : Type}

/-! ## The call -/

def bootstrapKeyName : String := "bootstrap"
def bootstrapKID : String := "bootstrap0"

def DefaultAdminKeyTTL : Int := 2160 * 3600 * second

/-- What `token.MintWithKID` gives for the fixed KID. -/
structure Minted where
  raw : String
  secret : Bytes

/-- The settings that the hub mints with. -/
structure MintConfig where
  adminKeyTTL : Int
  /-- `hasher.Sum`. -/
  hmac : Bytes → Bytes

def MintConfig.bootstrapTTL (cfg : MintConfig) : Int :=
  if 0 < cfg.adminKeyTTL then cfg.adminKeyTTL else DefaultAdminKeyTTL

def bootstrapRecord (cfg : MintConfig) (minted : Minted) (now : Int) : Key where
  kid := bootstrapKID
  cls := .admin
  name := bootstrapKeyName
  owner := ""
  secretHMAC := cfg.hmac minted.secret
  scope := none
  enrollment := none
  createdAt := now
  expiresAt := timeAdd now cfg.bootstrapTTL
  lastUsed := none
  revokedAt := none
  revokedReason := ""

/-- How the call ended. The reading of the clock and the version that was listed are no results
of the source. -/
inductive BootstrapAnswer where
  | listFailed
  | adminExists
  | storeFailed
  | lostRace
  | revealed (raw : String) (clock : Int) (listed : Nat)
  deriving DecidableEq

variable (S : Setup ρ Op Reply Blob)

/-- `Store.read` with the version of the Secret that it decoded. -/
def readVersion (r : ρ) : Call ρ Op Blob (Except ReadErr (State × Nat)) := do
  let closed ← isClosed r
  if ← ctxDone then return .error .canceled
  if closed then return .error .closed
  match ← secretstore.load S r false with
  | .error e => return .error (.load e)
  | .ok sec =>
    match decode S.json (S.document sec) with
    | .error e => return .error (.decode e)
    | .ok st => return .ok (st, sec.resourceVersion)

def putKeyIfNoUsable (r : ρ) (k : Key) (at_ : Int) : Call ρ Op Blob (Exit Reply Blob) := do
  if isZero at_ then
    let at_ ← secretstore.now r
    mutate S r (.putKeyIfNoUsable (some k) at_)
  else mutate S r (.putKeyIfNoUsable (some k) at_)

/-- The answer for the result of the write. -/
def bootstrapAnswer (raw : String) (clock : Int) (listed : Nat) :
    Exit Reply Blob → BootstrapAnswer
  | .committed _ _ => .revealed raw clock listed
  | .unchanged _ => .lostRace
  | _ => .storeFailed

/-- `bootstrapAdminKey` at replica `r`. -/
def bootstrapAdminKey (cfg : MintConfig) (r : ρ) (order : Range String KeyRecord)
    (minted : Minted) : Call ρ Op Blob BootstrapAnswer := do
  match ← readVersion S r with
  | .error _ => return .listFailed
  | .ok (st, listed) =>
    let clock ← secretstore.now r
    if (listKeys order .admin st).any fun k => k.usable clock then return .adminExists
    else
      let x ← putKeyIfNoUsable S r (bootstrapRecord cfg minted clock) clock
      return bootstrapAnswer minted.raw clock listed x

/-! ## The system -/

/-- A bootstrap at a replica, or any other call of the store. -/
inductive AdminRequest (ρ : Type) where
  | bootstrap (r : ρ) (order : Range String KeyRecord) (minted : Minted)
  | store (q : Request ρ Op)

inductive AdminAnswer (Blob : Type) where
  | bootstrapped (x : BootstrapAnswer)
  | stored (x : Outcome Reply Blob)

def AdminRequest.program (cfg : MintConfig) :
    AdminRequest ρ → Call ρ Op Blob (AdminAnswer Blob)
  | .bootstrap r order minted => return .bootstrapped (← bootstrapAdminKey S cfg r order minted)
  | .store q => return .stored (← q.program S)

def adminSystem (cfg : MintConfig) (start : Option (Secret Blob)) (calls : ι → AdminRequest ρ) :
    Conf (@Ans ρ Op Blob) ι (World ρ ι Op Blob) (AdminAnswer Blob) :=
  { shared := initial start, thread := fun i => (calls i).program S cfg }

/-- What a call may write: a bootstrap the record of its token, another call its mutation. -/
def adminPlan (cfg : MintConfig) (start : Option (Secret Blob)) (calls : ι → AdminRequest ρ) :
    Plan ι Op Blob :=
  { start := start
    carries := fun i m =>
      match calls i with
      | .bootstrap _ _ minted =>
        ∃ clock at_, m = .putKeyIfNoUsable (some (bootstrapRecord cfg minted clock)) at_
      | .store (.mutate _ m') => m = m'
      | .store _ => False }

end prom_fleet.hub
