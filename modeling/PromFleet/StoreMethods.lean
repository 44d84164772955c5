-- The methods of the document as the source has them: they change the document in place,
-- and an error leaves it as the method had it at that point. Each method does what its
-- function of the document says, and an error leaves the document as it was.
import PromFleet.Codec
import PromFleet.EpochLaws

namespace prom_fleet.store

open fleet map_range Finmap

/-! ## Code in place -/

/-- Code that works on the document in place and can fail. A method reports whether the
document changed, beside what it returns. -/
abbrev InPlace := ExceptT Err (StateM State)

section Run

variable {α β : Type} (s : State)

@[simp] theorem run_get : (get : InPlace State).run s = (.ok s, s) := rfl

@[simp] theorem run_liftExcept (x : Except Err α) : (liftExcept x : InPlace α).run s = (x, s) := by
  cases x <;> rfl

/-- The second part goes on where the first one left the document, or an error ends the
code there. -/
@[simp] theorem run_bind (m : InPlace α) (f : α → InPlace β) :
    (m >>= f).run s =
      match m.run s with
      | (.ok a, t) => (f a).run t
      | (.error e, t) => (.error e, t) := by
  change (ExceptT.bindCont f (m.run s).1) (m.run s).2 = _
  cases m.run s with
  | mk x t => cases x <;> rfl

end Run

/-! ## The methods -/

namespace inplace

def putKey (k? : Option Key) : InPlace (Bool × Unit) := do
  let k ← liftExcept (validateKey k?)
  let s ← get
  match s.keys.lookup k.kid with
  | some _ => throw (.keyExists k.kid)
  | none =>
    modify (putRecord k)
    modify bump
    return (true, ())

def putKeyIfNoUsable (k? : Option Key) (at_ : Int) : InPlace (Bool × Unit) := do
  let k ← liftExcept (validateKey k?)
  let s ← get
  if ((s.keys.lookup k.kid).map fun r => r.value.usable at_) = some true then
    return (false, ())
  else
    modify (putRecord k)
    modify bump
    return (true, ())

def revokeKey (kid reason : String) (at_ now : Int) : InPlace (Bool × Unit) := do
  let s ← get
  match s.keys.lookup kid with
  | none => throw (.keyNotFound kid)
  | some r =>
    match r.key.revokedAt with
    | some _ => return (false, ())
    | none =>
      modify (setRecord kid (r.revoke (whenOf at_ now) reason))
      modify bump
      return (true, ())

/-- `State.ReplaceKey`: the new key goes in before the old one is revoked. -/
def replaceKey (fresh : Option Key) (oldKID reason : String) (at_ now : Int) :
    InPlace (Bool × Unit) := do
  let s ← get
  match s.keys.lookup oldKID with
  | none => throw (.keyNotFound oldKID)
  | some old =>
    match old.key.revokedAt with
    | some _ => throw (.alreadyRevoked oldKID old.key.revokedReason)
    | none =>
      let _ ← putKey fresh
      modify (setRecord oldKID (old.revoke (whenOf at_ now) reason))
      return (true, ())

def deleteKey (kid : String) : InPlace (Bool × Unit) := do
  let s ← get
  match s.keys.lookup kid with
  | none => throw (.keyNotFound kid)
  | some _ =>
    modify fun s => { s with keys := s.keys.erase kid }
    modify bump
    return (true, ())

def touchKey (kid : String) (at_ now : Int) : InPlace (Bool × Unit) := do
  let s ← get
  match s.keys.lookup kid with
  | none => throw (.keyNotFound kid)
  | some r =>
    modify (setRecord kid (r.touch (whenOf at_ now)))
    return (true, ())

def burnEnrollment (kid certSerial : String) (at_ now : Int) : InPlace (Bool × Key) := do
  if certSerial = "" then throw (.noSerial kid)
  else
    let s ← get
    match s.keys.lookup kid with
    | none => throw (.enrollmentNotFound kid)
    | some r =>
      match r.key.enrollment with
      | none => throw (.notEnrollment kid r.key.cls)
      | some g =>
        if r.key.cls ≠ .enrollment then throw (.notEnrollment kid r.key.cls)
        else if !r.key.usable (whenOf at_ now) then throw (.notUsable kid)
        else
          match EnrollmentGrant.spent g kid with
          | some e => throw e
          | none =>
            let burned := r.regrant (EnrollmentGrant.redeemed g (whenOf at_ now) certSerial)
            modify (setRecord kid burned)
            modify bump
            return (true, burned.value)

def revokeCert (rc : RevokedCert) (now : Int) : InPlace (Bool × Unit) := do
  if rc.serial = "" then throw .certHasNoSerial
  else
    modify (setCert rc.serial { rc with revokedAt := whenOf rc.revokedAt now })
    modify bump
    return (true, ())

/-- `State.Prune`: the two loops delete from the maps that they visit. -/
def prune (o : PruneOrder) (now retain : Int) : InPlace (Bool × PruneResult) := do
  if retain < 0 then throw .negativeRetain
  else
    let s ← get
    let certs := sweep (fun _ rc => certLapsed now retain rc) (o.certs.list s.revokedCerts)
      (s.revokedCerts, 0)
    modify fun s => { s with revokedCerts := certs.1 }
    let s ← get
    let authority := labelAuthorities o s
    let keys := sweep (fun kid r => keyLapsed now retain r && !decide (kid ∈ authority))
      (o.keys.list s.keys) (s.keys, 0)
    modify fun s => { s with keys := keys.1 }
    let res : PruneResult := { keys := keys.2, revokedCerts := certs.2 }
    return (!res.empty, res)

end inplace

/-! ## What a method leaves -/

/-- What a method leaves that does this: its report, and the document. -/
def left {β : Type} (s : State) : Except Err (Applied β) → Except Err (Bool × β) × State
  | .error e => (.error e, s)
  | .ok a => (.ok (a.changed, a.result), a.state)

section Left

variable (s : State)

theorem run_putKey (k? : Option Key) : (inplace.putKey k?).run s = left s (putKey k? s) := by
  unfold inplace.putKey putKey
  simp only [run_bind, run_liftExcept, run_get]
  cases hk : validateKey k? with
  | error e => rfl
  | ok k => cases hold : s.keys.lookup k.kid <;> simp only [hold] <;> rfl

theorem run_putKeyIfNoUsable (k? : Option Key) (at_ : Int) :
    (inplace.putKeyIfNoUsable k? at_).run s = left s (putKeyIfNoUsable k? at_ s) := by
  unfold inplace.putKeyIfNoUsable putKeyIfNoUsable
  simp only [run_bind, run_liftExcept, run_get]
  cases hk : validateKey k? with
  | error e => rfl
  | ok k =>
    by_cases hold : ((s.keys.lookup k.kid).map fun r => r.value.usable at_) = some true
    · simp only [if_pos hold]
      rfl
    · simp only [if_neg hold]
      rfl

theorem run_revokeKey (kid reason : String) (at_ now : Int) :
    (inplace.revokeKey kid reason at_ now).run s = left s (revokeKey kid reason at_ now s) := by
  unfold inplace.revokeKey revokeKey
  simp only [run_bind, run_get]
  cases hold : s.keys.lookup kid with
  | none => rfl
  | some r => cases hrev : r.key.revokedAt <;> simp only [hrev] <;> rfl

/-- The old key is judged before the new one goes in, so an error of either leaves the
document as it was. -/
theorem run_replaceKey (fresh : Option Key) (oldKID reason : String) (at_ now : Int) :
    (inplace.replaceKey fresh oldKID reason at_ now).run s =
      left s (replaceKey fresh oldKID reason at_ now s) := by
  unfold inplace.replaceKey replaceKey
  simp only [run_bind, run_get]
  cases hold : s.keys.lookup oldKID with
  | none => rfl
  | some old =>
    cases hrev : old.key.revokedAt with
    | some t => simp only [hrev]; rfl
    | none =>
      simp only [hrev, run_bind, run_putKey]
      cases hput : putKey fresh s <;> rfl

theorem run_deleteKey (kid : String) :
    (inplace.deleteKey kid).run s = left s (deleteKey kid s) := by
  unfold inplace.deleteKey deleteKey
  simp only [run_bind, run_get]
  cases hold : s.keys.lookup kid <;> rfl

theorem run_touchKey (kid : String) (at_ now : Int) :
    (inplace.touchKey kid at_ now).run s = left s (touchKey kid at_ now s) := by
  unfold inplace.touchKey touchKey
  simp only [run_bind, run_get]
  cases hold : s.keys.lookup kid <;> rfl

theorem run_burnEnrollment (kid certSerial : String) (at_ now : Int) :
    (inplace.burnEnrollment kid certSerial at_ now).run s =
      left s (burnEnrollment kid certSerial at_ now s) := by
  unfold inplace.burnEnrollment burnEnrollment
  by_cases hserial : certSerial = ""
  · simp only [if_pos hserial]
    rfl
  simp only [if_neg hserial, run_bind, run_get]
  cases hold : s.keys.lookup kid with
  | none => rfl
  | some r =>
    cases hgrant : r.key.enrollment with
    | none => simp only [hgrant]; rfl
    | some g =>
      simp only [hgrant]
      by_cases hcls : r.key.cls ≠ .enrollment
      · simp only [if_pos hcls]
        rfl
      simp only [if_neg hcls]
      by_cases huse : (!r.key.usable (whenOf at_ now)) = true
      · simp only [if_pos huse]
        rfl
      simp only [if_neg huse]
      cases hspent : EnrollmentGrant.spent g kid <;> rfl

theorem run_revokeCert (rc : RevokedCert) (now : Int) :
    (inplace.revokeCert rc now).run s = left s (revokeCert rc now s) := by
  unfold inplace.revokeCert revokeCert
  by_cases hserial : rc.serial = ""
  · simp only [if_pos hserial]
    rfl
  · simp only [if_neg hserial]
    rfl

theorem run_prune (o : PruneOrder) (now retain : Int) :
    (inplace.prune o now retain).run s = left s (prune o now retain s) := by
  unfold inplace.prune prune
  by_cases hretain : retain < 0
  · simp only [if_pos hretain]
    rfl
  · simp only [if_neg hretain]
    rfl

end Left

/-- The method, with its result as a reply. -/
def replying {β : Type} (f : β → Reply) (m : InPlace (Bool × β)) : InPlace (Bool × Reply) := do
  let x ← m
  return (x.1, f x.2)

variable {s : State}

theorem run_replying {β : Type} {m : InPlace (Bool × β)} {x : Except Err (Applied β)}
    (h : m.run s = left s x) (f : β → Reply) :
    (replying f m).run s = left s (x.map (.reply f)) := by
  rw [replying, run_bind, h]
  cases x <;> rfl

/-- The method of an operation, at the clock reading `now`. -/
def Op.method (now : Int) : Op → InPlace (Bool × Reply)
  | .putKey k => replying (fun _ => .unit) (inplace.putKey k)
  | .putKeyIfNoUsable k at_ => replying (fun _ => .unit) (inplace.putKeyIfNoUsable k at_)
  | .revokeKey kid reason at_ =>
    replying (fun _ => .unit) (inplace.revokeKey kid reason at_ now)
  | .replaceKey fresh oldKID reason at_ =>
    replying (fun _ => .unit) (inplace.replaceKey fresh oldKID reason at_ now)
  | .deleteKey kid => replying (fun _ => .unit) (inplace.deleteKey kid)
  | .touchKey kid at_ => replying (fun _ => .unit) (inplace.touchKey kid at_ now)
  | .burnEnrollment kid certSerial at_ =>
    replying .key (inplace.burnEnrollment kid certSerial at_ now)
  | .revokeCert rc => replying (fun _ => .unit) (inplace.revokeCert rc now)
  | .prune order retain => replying .pruned (inplace.prune order now retain)

/-- Each method does in place what its function says, and an error leaves the document as
it was. -/
theorem run_method (now : Int) (s : State) (op : Op) :
    (op.method now).run s = left s (op.apply now s) := by
  cases op with
  | putKey k => exact run_replying (run_putKey s k) fun _ => .unit
  | putKeyIfNoUsable k at_ => exact run_replying (run_putKeyIfNoUsable s k at_) fun _ => .unit
  | revokeKey kid reason at_ =>
    exact run_replying (run_revokeKey s kid reason at_ now) fun _ => .unit
  | replaceKey fresh oldKID reason at_ =>
    exact run_replying (run_replaceKey s fresh oldKID reason at_ now) fun _ => .unit
  | deleteKey kid => exact run_replying (run_deleteKey s kid) fun _ => .unit
  | touchKey kid at_ => exact run_replying (run_touchKey s kid at_ now) fun _ => .unit
  | burnEnrollment kid certSerial at_ =>
    exact run_replying (run_burnEnrollment s kid certSerial at_ now) .key
  | revokeCert rc => exact run_replying (run_revokeCert s rc now) fun _ => .unit
  | prune order retain => exact run_replying (run_prune s order now retain) .pruned

variable {b : Applied PruneResult} {now retain : Int} {o : PruneOrder}

theorem prune_version (h : prune o now retain s = .ok b) :
    b.state.schemaVersion = s.schemaVersion := by
  unfold prune at h
  split at h
  · cases h
  · cases h
    rfl

theorem prune_unchanged (h : prune o now retain s = .ok b) (hsame : b.changed = false) :
    b.state = s := by
  unfold prune at h
  split at h
  · cases h
  cases h
  simp only [Bool.not_eq_eq_eq_not, Bool.not_false, PruneResult.empty, Bool.and_eq_true,
    decide_eq_true_eq] at hsame
  obtain ⟨hkeys, hcerts⟩ := hsame
  rw [sweep_count_eq_zero] at hkeys hcerts
  rw [sweep_of_keep _ _ _ hkeys, sweep_of_keep _ _ _ hcerts]

variable {op : Op}

theorem apply_unchanged {a : Applied Reply} (h : op.apply now s = .ok a)
    (hsame : a.changed = false) : a.state = s := by
  cases op
  all_goals obtain ⟨b, hb, rfl⟩ := map_reply_ok h
  case putKey k =>
    obtain ⟨_, _, _, hchanged, _⟩ := putKey_cases hb
    cases hchanged.symm.trans hsame
  case putKeyIfNoUsable k at_ =>
    rcases putKeyIfNoUsable_cases hb with ⟨_, hs⟩ | ⟨_, _, hchanged, _, _⟩
    · exact hs
    · cases hchanged.symm.trans hsame
  case revokeKey kid reason at_ =>
    rcases revokeKey_cases hb with ⟨_, hs⟩ | ⟨_, _, hchanged, _⟩
    · exact hs
    · cases hchanged.symm.trans hsame
  case replaceKey fresh oldKID reason at_ =>
    obtain ⟨_, _, _, _, _, hchanged, _⟩ := replaceKey_cases hb
    cases hchanged.symm.trans hsame
  case deleteKey kid =>
    cases (deleteKey_cases hb).1.symm.trans hsame
  case touchKey kid at_ =>
    obtain ⟨_, _, hchanged, _⟩ := touchKey_cases hb
    cases hchanged.symm.trans hsame
  case burnEnrollment kid certSerial at_ =>
    obtain ⟨_, _, _, _, _, _, _, hchanged, _⟩ := burnEnrollment_cases hb
    cases hchanged.symm.trans hsame
  case revokeCert rc =>
    cases (revokeCert_cases hb).2.1.symm.trans hsame
  case prune order retain =>
    exact prune_unchanged hb hsame

/-! ## The digests -/

/-- The digest of a key lives in the field of its record, and nowhere else. JSON would not
carry a second copy. -/
def Tidy (s : State) : Prop := ∀ kid r, s.keys.lookup kid = some r → r.key.secretHMAC = []

instance : DecidablePred Tidy := fun s =>
  decidable_of_iff (∀ e ∈ s.keys.entries, e.2.key.secretHMAC = []) (by
    constructor
    · intro h kid r hr
      exact h ⟨kid, r⟩ (lookup_eq_some_iff.mp hr)
    · rintro h ⟨kid, r⟩ he
      exact h kid r (lookup_eq_some_iff.mpr he))

theorem Tidy.setRecord (h : Tidy s) {r : KeyRecord} (hr : r.key.secretHMAC = []) (kid : String) :
    Tidy (setRecord kid r s) := by
  intro kid' r' hr'
  by_cases hkid : kid' = kid
  · subst hkid
    rw [store.setRecord, lookup_insert] at hr'
    cases hr'
    exact hr
  · rw [store.setRecord, lookup_insert_of_ne _ hkid] at hr'
    exact h kid' r' hr'

/-- A document that this build has decoded: of its version, and with the digests in one
place. -/
structure Settled (s : State) : Prop where
  version : s.schemaVersion = SchemaVersion
  tidy : Tidy s

theorem settled_newState : Settled newState := ⟨rfl, fun _ _ h => by simp [newState] at h⟩

theorem Effect.settled {s' : State} (h : Effect now s op s') (hs : Settled s) : Settled s' := by
  obtain ⟨hversion, htidy⟩ := hs
  cases h with
  | same => exact ⟨hversion, htidy⟩
  | putKey | putKeyIfNoUsable => exact ⟨hversion, htidy.setRecord rfl _⟩
  | revokeKey hr =>
    have hnil := htidy _ _ hr
    refine ⟨hversion, Tidy.setRecord htidy ?_ _⟩
    exact hnil
  | replaceKey _ hold =>
    have hnil := htidy _ _ hold
    refine ⟨hversion, Tidy.setRecord (Tidy.setRecord htidy rfl _) ?_ _⟩
    exact hnil
  | @deleteKey kid =>
    refine ⟨hversion, fun kid' r hr => ?_⟩
    by_cases hkid : kid' = kid
    · subst hkid
      simp [bump] at hr
    · rw [bump, lookup_erase_ne hkid] at hr
      exact htidy kid' r hr
  | touchKey hr | burnEnrollment hr =>
    have hnil := htidy _ _ hr
    refine ⟨hversion, Tidy.setRecord htidy ?_ _⟩
    exact hnil
  | revokeCert => exact ⟨hversion, htidy⟩
  | prune hb =>
    refine ⟨(prune_version hb).trans hversion, fun kid r hr => ?_⟩
    obtain ⟨_, _, hkeys, _⟩ := prune_cases hb
    rw [hkeys kid, Option.filter_eq_some_iff] at hr
    exact htidy kid r hr.1

/-! ## The encoding -/

/-- What `encoding/json` does with the document types: a document has bytes, which decode to it
again, and the digest inside a domain key is neither written nor read. -/
structure Json.RoundTrips {Blob : Type} (json : Json Blob) : Prop where
  len_pos : ∀ s, 0 < json.len (json.marshal s)
  exact : ∀ s, Tidy s → json.unmarshal (json.marshal s) = .ok s
  tidy : ∀ b s, json.unmarshal b = .ok s → Tidy s

section Decode

variable {Blob : Type} {json : Json Blob} {s : State}

theorem migrate_eq_ok {s' : State} (h : migrate s = .ok s') :
    s'.schemaVersion = SchemaVersion ∧ s'.keys = s.keys := by
  unfold migrate migrateTo at h
  dsimp only at h
  generalize (if s.schemaVersion = 0 then SchemaVersion else s.schemaVersion) = version at h
  by_cases hnew : version > SchemaVersion
  · rw [if_pos hnew] at h
    cases h
  rw [if_neg hnew] at h
  by_cases hold : version < SchemaVersion
  · rw [if_pos hold] at h
    cases h
  · rw [if_neg hold] at h
    cases h
    exact ⟨le_antisymm (not_lt.mp hnew) (not_lt.mp hold), rfl⟩

theorem settled_of_decode (hj : json.RoundTrips) {b : Option Blob} (h : decode json b = .ok s) :
    Settled s := by
  unfold decode at h
  cases b with
  | none =>
    cases h
    exact settled_newState
  | some b =>
    by_cases hlen : json.len b = 0
    · simp only [if_pos hlen] at h
      cases h
      exact settled_newState
    · simp only [if_neg hlen] at h
      cases hread : json.unmarshal b with
      | error e => simp [hread] at h
      | ok t =>
        simp only [hread] at h
        obtain ⟨hversion, hkeys⟩ := migrate_eq_ok h
        refine ⟨hversion, fun kid r hr => ?_⟩
        rw [hkeys] at hr
        exact hj.tidy b t hread kid r hr

theorem Settled.decode_encode (hj : json.RoundTrips) (hs : Settled s) :
    decode json (some (encode json s)) = .ok s := by
  have hsame : { s with schemaVersion := SchemaVersion } = s := by
    obtain ⟨hversion, _⟩ := hs
    cases s
    cases hversion
    rfl
  have hlen : json.len (encode json s) ≠ 0 := by
    have := hj.len_pos { s with schemaVersion := SchemaVersion }
    unfold encode
    omega
  have hmigrate : migrate s = .ok s := by
    rw [← hsame]
    simp [migrate, migrateTo, SchemaVersion]
  unfold decode
  simp only [if_neg hlen]
  rw [encode, hsame, hj.exact s hs.tidy]
  exact hmigrate

end Decode

end prom_fleet.store
