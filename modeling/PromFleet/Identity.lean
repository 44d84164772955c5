-- The domain types of the fleet: the credential classes, the scope of an agent key, the
-- enrollment grant and the key record with its three questions (expired, revoked, usable).
-- An instant is an `Int`, in nanoseconds since the zero `time.Time`, as is a `time.Duration`.
import Mathlib.Data.Finmap

namespace prom_fleet

/-- A `[]byte`. Go's nil slice is the empty list. -/
abbrev Bytes := List UInt8

/-- A Go `map[string]V`. -/
abbrev StrMap (V : Type) := Finmap fun _ : String => V

/-- `time.Time.IsZero`. -/
def isZero (t : Int) : Bool := decide (t = 0)

@[simp] theorem isZero_iff (t : Int) : isZero t = true ↔ t = 0 := by simp [isZero]

namespace fleet

/-! ## Classes and roles -/

/-- `fleet.KeyClass`. A stored document can hold any text here, so a text that
names no class is kept as it is. -/
inductive KeyClass where
  | admin
  | agent
  | enrollment
  | unknown (text : String)
  deriving DecidableEq, Repr

def KeyClass.valid : KeyClass → Bool
  | .unknown _ => false
  | _ => true

/-- `fleet.Role`, with the empty role of a key that has none as `unknown ""`. -/
inductive Role where
  | viewer
  | operator
  | admin
  | unknown (text : String)
  deriving DecidableEq, Repr

/-! ## The scope of an agent key -/

structure ClusterScope where
  allow : List String
  matchLabels : StrMap String
  deny : List String
  deriving DecidableEq

structure ToolScope where
  allow : List String
  deny : List String
  deriving DecidableEq

/-- `fleet.Limits`. The rate is a `float64` in the source. -/
structure Limits where
  maxLookback : Int
  maxPoints : Int
  maxSeries : Int
  timeout : Int
  maxResponseBytes : Int
  maxConcurrentPerCluster : Int
  rateRPS : Rat
  rateBurst : Int
  deriving DecidableEq

structure Scope where
  role : Role
  clusters : ClusterScope
  tools : ToolScope
  limits : Limits
  deriving DecidableEq

/-! ## Keys -/

/-- `fleet.EnrollmentGrant`: what an enrollment token buys, and how often it
was redeemed. -/
structure EnrollmentGrant where
  clusterID : String
  labels : StrMap String
  usedAt : Option Int
  certSerial : String
  reusable : Bool
  redemptions : Int
  maxRedemptions : Int
  deriving DecidableEq

structure Key where
  kid : String
  cls : KeyClass
  name : String
  owner : String
  secretHMAC : Bytes
  scope : Option Scope
  enrollment : Option EnrollmentGrant
  createdAt : Int
  expiresAt : Int
  lastUsed : Option Int
  revokedAt : Option Int
  revokedReason : String
  deriving DecidableEq

namespace Key

/-- The key is past its expiry. The zero time is no expiry. -/
def expired (k : Key) (now : Int) : Bool := !isZero k.expiresAt && decide (k.expiresAt < now)

def revoked (k : Key) : Bool := k.revokedAt.isSome

/-- The key may authenticate a request at `now`. -/
def usable (k : Key) (now : Int) : Bool := !k.revoked && !k.expired now

theorem usable_iff (k : Key) (now : Int) :
    k.usable now = true ↔ k.revoked = false ∧ k.expired now = false := by
  simp [usable]

end Key

/-- `fleet.Principal`: the caller that a verified credential stands for. -/
structure Principal where
  kid : String
  name : String
  cls : KeyClass
  role : Role
  scope : Option Scope
  epoch : Nat
  deriving DecidableEq

end fleet

end prom_fleet
