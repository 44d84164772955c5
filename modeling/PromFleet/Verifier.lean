-- The verifier of bearer tokens. It remembers the tokens it has verified, and the ones it has
-- refused, by their hash, and forgets both when the revocation epoch of the store has moved.
-- Any number of calls run at once, with mutations of the document between their steps.
import PromFleet.EpochLaws
import PromFleet.Interleave
import PromFleet.Lru

namespace prom_fleet.authn

open interleave fleet store lru

/-! ## The data of a verifier -/

/-- The errors that a caller can tell apart. -/
inductive VerifyErr where
  | unauthenticated
  | wrongClass
  | expired
  | revoked
  | rateLimited
  deriving DecidableEq, Repr

inductive Reason where
  | unknownKey
  | storeError
  | badSecret
  | wrongClass
  | revoked
  | expired
  deriving DecidableEq, Repr

structure CacheEntry where
  principal : Principal
  keyExpiry : Int
  cachedAt : Int
  epoch : Nat

structure NegEntry where
  err : VerifyErr
  reason : Reason
  cachedAt : Int

/-- A credential with this expiry has lapsed. The zero time is no expiry. -/
def lapsed (expiry now : Int) : Bool := !isZero expiry && decide (expiry < now)

/-- The options of a verifier, with the parser of tokens, the hash of a raw token
that keys the caches, and the keyed hash of a secret. -/
structure Verifier (D : Type) where
  cacheTTL : Int
  negativeTTL : Int
  cacheSize : Nat
  parse : String → Option (KeyClass × String × Bytes)
  sum256 : String → D
  hmac : Bytes → Bytes

/-- What `Verify` returns. `clock` is no result of the source: it is the reading
that the call used. -/
structure Verified where
  principal : Principal
  expiry : Int
  clock : Int

/-! ## The shared state -/

/-- The document, the clock and the memory of the verifier. `events` is no data
of the source: it records what was done to the document. -/
structure World (D : Type) where
  time : Int
  doc : State
  events : List Event
  epoch : Option Nat
  pos : Lru D CacheEntry
  neg : Lru D NegEntry

/-- What the environment decides at a step: the time, whether the store can be
read, and whether the failure limiter lets a call pass. -/
structure Env where
  now : Int
  up : Bool
  allow : Bool

/-- The atomic operations: a reading of the clock, a read of the store, and the
critical sections of the epoch and of the two caches. -/
inductive Op (D : Type) where
  | clock
  | readEpoch
  | setEpoch (epoch : Nat)
  | posGet (sum : D)
  | posPut (sum : D) (e : CacheEntry)
  | posRemove (sum : D)
  | posPurge
  | negGet (sum : D)
  | negPut (sum : D) (e : NegEntry)
  | negRemove (sum : D)
  | negPurge
  | allow (ip kid : String)
  | getKey (kid : String)
  | apply (e : Event)

inductive KeyErr where
  | notFound
  | unavailable
  deriving DecidableEq

abbrev Ans {D : Type} : Op D → Type
  | .clock => Int
  | .readEpoch => Option Nat
  | .setEpoch _ => Bool
  | .posGet _ => Option CacheEntry
  | .negGet _ => Option NegEntry
  | .allow _ _ => Bool
  | .getKey _ => Except KeyErr Key
  | _ => Unit

variable {D : Type}

/-- `Store.GetKey` on the document. -/
def lookupKey (kid : String) (s : State) : Except KeyErr Key :=
  match getKey kid s with
  | .ok k => .ok k
  | .error _ => .error .notFound

section Machine

variable [DecidableEq D]

/-- What each operation does. The verifier's clock does not go back. Whoever mutates the document
reads a clock of their own. -/
def act : (o : Op D) → Env → World D → Option (Ans o × World D)
  | .clock, e, w => if w.time ≤ e.now then some (e.now, { w with time := e.now }) else none
  | .readEpoch, e, w => some (if e.up then some w.doc.epoch else none, w)
  | .setEpoch epoch, _, w => some (decide (w.epoch ≠ some epoch), { w with epoch := some epoch })
  | .posGet sum, _, w => some ((get sum w.pos).1, { w with pos := (get sum w.pos).2 })
  | .posPut sum e, _, w => some ((), { w with pos := put sum e w.pos })
  | .posRemove sum, _, w => some ((), { w with pos := remove sum w.pos })
  | .posPurge, _, w => some ((), { w with pos := purge w.pos })
  | .negGet sum, _, w => some ((get sum w.neg).1, { w with neg := (get sum w.neg).2 })
  | .negPut sum e, _, w => some ((), { w with neg := put sum e w.neg })
  | .negRemove sum, _, w => some ((), { w with neg := remove sum w.neg })
  | .negPurge, _, w => some ((), { w with neg := purge w.neg })
  | .allow _ _, e, w => some (e.allow, w)
  | .getKey kid, e, w => some (if e.up then lookupKey kid w.doc else .error .unavailable, w)
  | .apply ev, _, w => some ((), { w with doc := after w.doc ev, events := w.events ++ [ev] })

def machine {ι : Type} : Machine (@Ans D) ι Env (World D) where
  act _ o e w := act o e w

end Machine

abbrev Call (D α : Type) := Prog (@Ans D) α

abbrev clock : Call D Int := Prog.call Op.clock
abbrev readEpoch : Call D (Option Nat) := Prog.call Op.readEpoch
abbrev setEpoch (epoch : Nat) : Call D Bool := Prog.call (Op.setEpoch epoch)
abbrev posGet (sum : D) : Call D (Option CacheEntry) := Prog.call (Op.posGet sum)
abbrev posPut (sum : D) (e : CacheEntry) : Call D Unit := Prog.call (Op.posPut sum e)
abbrev posRemove (sum : D) : Call D Unit := Prog.call (Op.posRemove sum)
abbrev posPurge : Call D Unit := Prog.call Op.posPurge
abbrev negGet (sum : D) : Call D (Option NegEntry) := Prog.call (Op.negGet sum)
abbrev negPut (sum : D) (e : NegEntry) : Call D Unit := Prog.call (Op.negPut sum e)
abbrev negRemove (sum : D) : Call D Unit := Prog.call (Op.negRemove sum)
abbrev negPurge : Call D Unit := Prog.call Op.negPurge
abbrev allow (ip kid : String) : Call D Bool := Prog.call (Op.allow ip kid)
abbrev getKey (kid : String) : Call D (Except KeyErr Key) := Prog.call (Op.getKey kid)
abbrev apply (e : Event) : Call D Unit := Prog.call (Op.apply e)

/-! ## The steps of `Verify` -/

def principalFor (k : Key) : Principal :=
  { kid := k.kid, name := k.name, cls := k.cls, role := roleOf k, scope := k.scope, epoch := 0 }

def syncEpoch : Call D (Option Nat) := do
  match ← readEpoch with
  | none => return none
  | some epoch =>
    let changed ← setEpoch epoch
    if changed then
      posPurge
      negPurge
      return some epoch
    else return some epoch

variable (V : Verifier D)

/-- The part of `fromCache` that asks the negative cache. -/
def fromNegative (sum : D) (now : Int) : Call D (Option (Except VerifyErr Verified)) := do
  match ← negGet sum with
  | none => return none
  | some e =>
    if now - e.cachedAt < V.negativeTTL then return some (.error e.err)
    else
      negRemove sum
      return none

/-- `Verifier.fromCache`: the decision, if the caches have one. -/
def fromCache (sum : D) (epoch : Nat) (now : Int) :
    Call D (Option (Except VerifyErr Verified)) := do
  match ← posGet sum with
  | none => fromNegative V sum now
  | some e =>
    if e.epoch ≠ epoch ∨ now - e.cachedAt ≥ V.cacheTTL then
      posRemove sum
      fromNegative V sum now
    else if lapsed e.keyExpiry now then
      posRemove sum
      return some (.error .expired)
    else
      return some (.ok { principal := e.principal, expiry := e.keyExpiry, clock := now })

def verifyAgainstStore (kid : String) (secret : Bytes) (want : KeyClass)
    (now : Int) : Call D (Except (Reason × VerifyErr) (Principal × Int)) := do
  match ← getKey kid with
  | .error .notFound => return .error (.unknownKey, .unauthenticated)
  | .error .unavailable => return .error (.storeError, .unauthenticated)
  | .ok key =>
    if key.secretHMAC ≠ V.hmac secret then return .error (.badSecret, .unauthenticated)
    else if key.cls ≠ want then return .error (.wrongClass, .wrongClass)
    else if key.revoked then return .error (.revoked, .revoked)
    else if key.expired now then return .error (.expired, .expired)
    else return .ok (principalFor key, key.expiresAt)

/-- The part of `verify` behind the caches. -/
def verifyUncached (sum : D) (ip kid : String) (secret : Bytes)
    (want : KeyClass) (epoch? : Option Nat) (now : Int) : Call D (Except VerifyErr Verified) := do
  let allowed ← allow ip kid
  if !allowed then return .error .rateLimited
  else
    match epoch? with
    | none => return .error .unauthenticated
    | some epoch =>
      match ← verifyAgainstStore V kid secret want now with
      | .error (reason, err) =>
        negPut sum { err := err, reason := reason, cachedAt := now }
        return .error err
      | .ok (p, exp) =>
        let p := { p with epoch := epoch }
        posPut sum { principal := p, keyExpiry := exp, cachedAt := now, epoch := epoch }
        negRemove sum
        return .ok { principal := p, expiry := exp, clock := now }

/-- `Verifier.verify` from its reading of the clock on. The touch of the key at
its end is a mutation of its own. -/
def verifyAt (ip raw : String) (want : KeyClass) (now : Int) :
    Call D (Except VerifyErr Verified) := do
  match V.parse raw with
  | none => return .error .unauthenticated
  | some (cls, kid, secret) =>
    if cls ≠ want then return .error .wrongClass
    else
      match ← syncEpoch with
      | none => verifyUncached V (V.sum256 raw) ip kid secret want none now
      | some epoch =>
        match ← fromCache V (V.sum256 raw) epoch now with
        | some decision => return decision
        | none => verifyUncached V (V.sum256 raw) ip kid secret want (some epoch) now

def verify (ip raw : String) (want : KeyClass) : Call D (Except VerifyErr Verified) := do
  let now ← clock
  verifyAt V ip raw want now

/-! ## The system -/

/-- A call of the verifier, or a mutation of the document by anyone. -/
inductive Request where
  | verify (ip raw : String) (want : KeyClass)
  | mutate (e : Event)

inductive Outcome where
  | verified (x : Except VerifyErr Verified)
  | mutated

def Request.program : Request → Call D Outcome
  | .verify ip raw want => return .verified (← authn.verify V ip raw want)
  | .mutate e => do
    apply e
    return .mutated

def initial (start : State) (time : Int) : World D :=
  { time := time, doc := start, events := [], epoch := none, pos := new V.cacheSize
    neg := new V.cacheSize }

def system {ι : Type} (V : Verifier D) (start : State) (time : Int) (calls : ι → Request) :
    Conf (@Ans D) ι (World D) Outcome :=
  { shared := initial V start time, thread := fun i => (calls i).program V }

end prom_fleet.authn
