-- The laws of the revocation epoch: no operation takes the epoch back, and an
-- operation that leaves it alone changes no answer. So two documents of one run
-- with the same epoch accept the same keys and revoke the same certificates.
import PromFleet.State

namespace prom_fleet.store

open fleet map_range List Option

/-! ## The decision on one record -/

/-- What an accepted key carries. -/
structure Accepted where
  scope : Option Scope
  role : Role
  enrollment : Option EnrollmentGrant
  deriving DecidableEq

/-- The role that `principalFor` gives the holder of a key. -/
def roleOf (k : Key) : Role :=
  if k.cls = .admin then .admin
  else
    match k.scope with
    | some sc => sc.role
    | none => .unknown ""

/-- The checks of `verifyAgainstStore` on a key that was found. -/
def acceptKey (hmac : Bytes) (cls : KeyClass) (t : Int) (k : Key) : Option Accepted :=
  if k.secretHMAC ≠ hmac then none
  else if k.cls ≠ cls then none
  else if k.revoked then none
  else if k.expired t then none
  else some { scope := k.scope, role := roleOf k, enrollment := k.enrollment }

def authenticate (kid : String) (hmac : Bytes) (cls : KeyClass) (t : Int) (s : State) :
    Option Accepted :=
  (s.keys.lookup kid).bind fun r => acceptKey hmac cls t r.value

/-- The serial is revoked, and its entry meets `p`. -/
def revokedWith (p : RevokedCert → Prop) (serial : String) (s : State) : Prop :=
  ∃ rc, s.revokedCerts.lookup serial = some rc ∧ p rc

variable {cls : KeyClass} {hmac : Bytes} {t : Int}

theorem acceptKey_expired {k : Key} (h : k.expired t = true) : acceptKey hmac cls t k = none := by
  unfold acceptKey
  simp [h]

/-! ## Documents that answer alike -/

/-- The entry still refuses something at `u`. -/
def certLive (u : Int) (rc : RevokedCert) : Bool := isZero rc.notAfter || decide (u ≤ rc.notAfter)

/-- From `t` on, the two documents accept the same keys with the same rights,
and they revoke the same certificates. -/
structure Alike (t : Int) (s s' : State) : Prop where
  keys : ∀ kid hmac cls u, t ≤ u → authenticate kid hmac cls u s' = authenticate kid hmac cls u s
  certs : ∀ serial u, t ≤ u →
    (s'.revokedCerts.lookup serial).filter (certLive u) =
      (s.revokedCerts.lookup serial).filter (certLive u)

theorem Alike.refl (t : Int) (s : State) : Alike t s s :=
  ⟨fun _ _ _ _ _ => rfl, fun _ _ _ => rfl⟩

variable {s s' : State}

theorem Alike.trans {s'' : State} (h : Alike t s s') (h' : Alike t s' s'') : Alike t s s'' := by
  refine ⟨fun kid hmac cls u hu => ?_, fun serial u hu => ?_⟩
  · rw [h'.keys kid hmac cls u hu, h.keys kid hmac cls u hu]
  · rw [h'.certs serial u hu, h.certs serial u hu]

variable {u : Int}

theorem Alike.mono (h : Alike t s s') (htu : t ≤ u) : Alike u s s' :=
  ⟨fun kid hmac cls v hv => h.keys kid hmac cls v (le_trans htu hv),
    fun serial v hv => h.certs serial v (le_trans htu hv)⟩

/-- Alike documents revoke the same serials, whichever of the two ways an entry
counts. -/
theorem Alike.revokedWith_iff (h : Alike t s s') {p : RevokedCert → Prop}
    (hp : ∀ rc, p rc → rc.notAfter = 0 ∨ t ≤ rc.notAfter) (serial : String) :
    revokedWith p serial s' ↔ revokedWith p serial s := by
  have hlive : ∀ rc, p rc → certLive t rc = true := by
    intro rc hrc
    simpa [certLive] using hp rc hrc
  have hc := h.certs serial t (le_refl t)
  constructor
  · rintro ⟨rc, hrc, hq⟩
    have hf : (s'.revokedCerts.lookup serial).filter (certLive t) = some rc :=
      filter_eq_some_iff.mpr ⟨hrc, hlive rc hq⟩
    rw [hc, filter_eq_some_iff] at hf
    exact ⟨rc, hf.1, hq⟩
  · rintro ⟨rc, hrc, hq⟩
    have hf : (s.revokedCerts.lookup serial).filter (certLive t) = some rc :=
      filter_eq_some_iff.mpr ⟨hrc, hlive rc hq⟩
    rw [← hc, filter_eq_some_iff] at hf
    exact ⟨rc, hf.1, hq⟩

/-! ## What a prune keeps -/

variable {now retain : Int} {r : KeyRecord}

theorem keyLapsed_expired (h : keyLapsed now retain r = true) (hr : 0 ≤ retain) (hu : now ≤ u) :
    r.value.expired u = true := by
  simp only [keyLapsed, Bool.and_eq_true, Bool.not_eq_true', decide_eq_true_eq] at h
  rw [KeyRecord.value_expired]
  simp only [Key.expired, Bool.and_eq_true, Bool.not_eq_true', decide_eq_true_eq]
  exact ⟨h.1, by omega⟩

variable {kid : String}

theorem authenticate_filter {keep : KeyRecord → Bool}
    (hk : s'.keys.lookup kid = (s.keys.lookup kid).filter keep)
    (hdead : ∀ r, keep r = false → r.value.expired u = true) :
    authenticate kid hmac cls u s' = authenticate kid hmac cls u s := by
  unfold authenticate
  rw [hk]
  cases hl : s.keys.lookup kid with
  | none => rfl
  | some r =>
    by_cases hkeep : keep r = true
    · simp [Option.filter, hkeep]
    · have hex := hdead r (by simpa using hkeep)
      simp [Option.filter, hkeep, acceptKey_expired hex]

theorem prune_alike {o : PruneOrder} {a : Applied PruneResult} (h : prune o now retain s = .ok a) :
    Alike now s a.state := by
  obtain ⟨hr, _, hkeys, hcerts⟩ := prune_cases h
  refine ⟨fun kid hmac cls u hu => ?_, fun serial u hu => ?_⟩
  · refine authenticate_filter (hkeys kid) fun r hk => ?_
    rw [Bool.not_eq_false', Bool.and_eq_true] at hk
    exact keyLapsed_expired hk.1 hr hu
  · rw [hcerts serial, Option.filter_filter]
    congr 1
    funext rc
    by_cases hl : certLapsed now retain rc = true
    · simp only [certLapsed, Bool.and_eq_true, Bool.not_eq_true', decide_eq_true_eq] at hl
      simp [certLapsed, certLive, hl.1]
      omega
    · simp [hl]

/-- A touch rewrites one record and leaves what decides about it. -/
theorem touch_alike (hr : s.keys.lookup kid = some r) (when_ u : Int) :
    Alike u s (setRecord kid (r.touch when_) s) := by
  refine ⟨fun kid' hmac cls v _ => ?_, fun _ _ _ => rfl⟩
  unfold authenticate
  by_cases hk : kid' = kid
  · subst hk
    simp only [setRecord, Finmap.lookup_insert, hr]
    rfl
  · simp only [setRecord, Finmap.lookup_insert_of_ne _ hk]

/-! ## What an operation does -/

/-- The documents that the operations make of `s` at `now`, and what they found in
it. -/
inductive Effect (now : Int) (s : State) : Op → State → Prop
  | same (op : Op) : Effect now s op s
  | putKey {k : Key} : s.keys.lookup k.kid = none →
      Effect now s (.putKey (some k)) (bump (putRecord k s))
  | putKeyIfNoUsable {k : Key} {at_ : Int} :
      Effect now s (.putKeyIfNoUsable (some k) at_) (bump (putRecord k s))
  | revokeKey {kid reason : String} {at_ : Int} {r : KeyRecord} : s.keys.lookup kid = some r →
      Effect now s (.revokeKey kid reason at_)
        (bump (setRecord kid (r.revoke (whenOf at_ now) reason) s))
  | replaceKey {k : Key} {oldKID reason : String} {at_ : Int} {old : KeyRecord} :
      s.keys.lookup k.kid = none → s.keys.lookup oldKID = some old →
      Effect now s (.replaceKey (some k) oldKID reason at_)
        (setRecord oldKID (old.revoke (whenOf at_ now) reason) (bump (putRecord k s)))
  | deleteKey {kid : String} :
      Effect now s (.deleteKey kid) (bump { s with keys := s.keys.erase kid })
  | touchKey {kid : String} {at_ : Int} {r : KeyRecord} : s.keys.lookup kid = some r →
      Effect now s (.touchKey kid at_) (setRecord kid (r.touch (whenOf at_ now)) s)
  | burnEnrollment {kid certSerial : String} {at_ : Int} {r : KeyRecord} {g : EnrollmentGrant} :
      s.keys.lookup kid = some r → r.key.enrollment = some g →
      r.key.usable (whenOf at_ now) = true → EnrollmentGrant.spent g kid = none →
      Effect now s (.burnEnrollment kid certSerial at_) (bump
        (setRecord kid (r.regrant (EnrollmentGrant.redeemed g (whenOf at_ now) certSerial)) s))
  | revokeCert {rc : RevokedCert} :
      Effect now s (.revokeCert rc)
        (bump (setCert rc.serial { rc with revokedAt := whenOf rc.revokedAt now } s))
  | prune {order : PruneOrder} {retain : Int} {b : Applied PruneResult} :
      store.prune order now retain s = .ok b → Effect now s (.prune order retain) b.state

variable {a : Applied Reply}

theorem map_reply_ok {β : Type} {f : β → Reply} {x : Except Err (Applied β)}
    (h : x.map (Applied.reply f) = .ok a) : ∃ b, x = .ok b ∧ a = b.reply f := by
  cases x with
  | error e => cases h
  | ok b => exact ⟨b, rfl, by cases h; rfl⟩

variable {op : Op}

theorem apply_effect (h : op.apply now s = .ok a) : Effect now s op a.state := by
  cases op
  all_goals obtain ⟨b, hb, rfl⟩ := map_reply_ok h
  all_goals rw [Applied.reply_state]
  case putKey k =>
    obtain ⟨k, rfl, hnone, _, hs⟩ := putKey_cases hb
    rw [hs]
    exact .putKey hnone
  case putKeyIfNoUsable k at_ =>
    rcases putKeyIfNoUsable_cases hb with ⟨_, hs⟩ | ⟨k, rfl, _, hs, _⟩
    · rw [hs]
      exact .same _
    · rw [hs]
      exact .putKeyIfNoUsable
  case revokeKey kid reason at_ =>
    rcases revokeKey_cases hb with ⟨_, hs⟩ | ⟨r, hr, _, hs⟩
    · rw [hs]
      exact .same _
    · rw [hs]
      exact .revokeKey hr
  case replaceKey fresh oldKID reason at_ =>
    obtain ⟨k, old, rfl, hnone, hold, _, hs⟩ := replaceKey_cases hb
    rw [hs]
    exact .replaceKey hnone hold
  case deleteKey kid =>
    rw [(deleteKey_cases hb).2]
    exact .deleteKey
  case touchKey kid at_ =>
    obtain ⟨r, hr, _, hs⟩ := touchKey_cases hb
    rw [hs]
    exact .touchKey hr
  case burnEnrollment kid certSerial at_ =>
    obtain ⟨r, g, hr, _, hg, huse, hspent, _, hs⟩ := burnEnrollment_cases hb
    rw [hs]
    exact .burnEnrollment hr hg huse hspent
  case revokeCert rc =>
    obtain ⟨_, _, hs⟩ := revokeCert_cases hb
    rw [hs]
    exact .revokeCert
  case prune order retain =>
    exact .prune hb

/-- An operation moves the epoch on, or it leaves every answer as it was. -/
theorem Effect.epoch (h : Effect now s op s')
    (ht : ∀ order retain, op = .prune order retain → now ≤ t) :
    s'.epoch = s.epoch + 1 ∨ s'.epoch = s.epoch ∧ Alike t s s' := by
  cases h with
  | same => exact .inr ⟨rfl, Alike.refl t s⟩
  | touchKey hr => exact .inr ⟨rfl, touch_alike hr _ t⟩
  | prune hb =>
    obtain ⟨_, hepoch, _, _⟩ := prune_cases hb
    exact .inr ⟨hepoch, (prune_alike hb).mono (ht _ _ rfl)⟩
  | _ => exact .inl rfl

/-- The operations that leave the revocation list alone. -/
def Op.ofKeys : Op → Bool
  | .revokeCert _ => false
  | .prune _ _ => false
  | _ => true

theorem Effect.revokedCerts (h : Effect now s op s') (hop : op.ofKeys = true) :
    s'.revokedCerts = s.revokedCerts := by
  cases h with
  | revokeCert | prune => cases hop
  | _ => rfl

/-! ## Runs -/

/-- An operation at a reading of the clock. -/
structure Event where
  now : Int
  op : Op

/-- The document after an event. An operation that fails leaves it as it was. -/
def after (s : State) (e : Event) : State :=
  match e.op.apply e.now s with
  | .ok a => a.state
  | .error _ => s

variable {e : Event}

theorem revokedCerts_after (h : e.op.ofKeys = true) :
    (after s e).revokedCerts = s.revokedCerts := by
  unfold after
  split
  · rename_i a ha
    exact (apply_effect ha).revokedCerts h
  · rfl

def runEvents (s : State) (es : List Event) : State := es.foldl after s

/-- The event does not prune after `t`. -/
def Event.prunesBy (t : Int) (e : Event) : Prop :=
  ∀ o retain, e.op = .prune o retain → e.now ≤ t

instance (t : Int) (e : Event) : Decidable (e.prunesBy t) :=
  decidable_of_iff ((match e.op with | .prune _ _ => true | _ => false) = true → e.now ≤ t) (by
    unfold Event.prunesBy
    cases e.op <;> simp)

theorem Event.prunesBy.mono {t' : Int} (h : e.prunesBy t) (ht : t ≤ t') : e.prunesBy t' :=
  fun o retain he => (h o retain he).trans ht

theorem after_epoch (ht : e.prunesBy t) :
    (after s e).epoch = s.epoch + 1 ∨ (after s e).epoch = s.epoch ∧ Alike t s (after s e) := by
  unfold after
  split
  · rename_i a ha
    exact (apply_effect ha).epoch ht
  · exact .inr ⟨rfl, Alike.refl t s⟩

theorem runEvents_append (s : State) (xs ys : List Event) :
    runEvents s (xs ++ ys) = runEvents (runEvents s xs) ys := foldl_append ..

-- the `uint64` of the source would wrap after `2 ^ 64` changes
theorem epoch_le_runEvents (s : State) (es : List Event) : s.epoch ≤ (runEvents s es).epoch := by
  induction es generalizing s with
  | nil => exact le_refl _
  | cons e es ih =>
    have hstep : s.epoch ≤ (after s e).epoch := by
      -- the bound on the prune does not matter for the epoch itself
      rcases after_epoch (e := e) (s := s) (fun _ _ _ => le_refl _) with h | ⟨h, _⟩
      · omega
      · omega
    exact le_trans hstep (ih (after s e))

theorem runEvents_alike {es : List Event} (ht : ∀ e ∈ es, e.prunesBy t)
    (he : (runEvents s es).epoch = s.epoch) : Alike t s (runEvents s es) := by
  induction es generalizing s with
  | nil => exact .refl t s
  | cons e es ih =>
    have hrest := epoch_le_runEvents (after s e) es
    have hrun : runEvents s (e :: es) = runEvents (after s e) es := rfl
    rw [hrun] at he ⊢
    rcases after_epoch (e := e) (s := s) (ht e mem_cons_self) with h | ⟨h, hal⟩
    · omega
    · exact hal.trans (ih (fun x hx => ht x (mem_cons_of_mem _ hx)) (by omega))

/-- The epoch never goes back. Where it stands still between two points of a run, every key, secret,
class and time from the later point on gets the same answer with the same rights, and the same
certificates count as revoked. (This is without the wrap of the `uint64`.) -/
theorem the_epoch_tells_every_change (s : State) (xs ys : List Event) :
    (runEvents s xs).epoch ≤ (runEvents s (xs ++ ys)).epoch ∧
      ((runEvents s (xs ++ ys)).epoch = (runEvents s xs).epoch →
        ∀ t, (∀ e ∈ ys, e.prunesBy t) →
          (∀ kid hmac cls, authenticate kid hmac cls t (runEvents s (xs ++ ys)) =
            authenticate kid hmac cls t (runEvents s xs)) ∧
          (∀ serial, revokedWith (fun rc => t ≤ rc.notAfter) serial (runEvents s (xs ++ ys)) ↔
            revokedWith (fun rc => t ≤ rc.notAfter) serial (runEvents s xs)) ∧
          ∀ serial, revokedWith (fun rc => rc.notAfter = 0) serial (runEvents s (xs ++ ys)) ↔
            revokedWith (fun rc => rc.notAfter = 0) serial (runEvents s xs)) := by
  rw [runEvents_append]
  refine ⟨epoch_le_runEvents _ ys, fun he t ht => ?_⟩
  have hal := runEvents_alike ht he
  exact ⟨fun kid hmac cls => hal.keys kid hmac cls t (le_refl t),
    hal.revokedWith_iff fun _ h => .inr h, hal.revokedWith_iff fun _ h => .inl h⟩

/-- A document with an agent key that expires at `expiresAt` and one that does
not expire. -/
def twoKeys (expiresAt : Int) : State :=
  let key (kid : String) (expiresAt : Int) : Key :=
    { kid := kid, cls := .agent, name := kid, owner := "ops", secretHMAC := [1], scope := none,
      enrollment := none, createdAt := 10, expiresAt := expiresAt, lastUsed := none,
      revokedAt := none, revokedReason := "" }
  putRecord (key "live" 0) (putRecord (key "dead" expiresAt) newState)

def ascendingOrder : PruneOrder :=
  { certs := ascending, scan := ascending, newest := ascending, keys := ascending }

/-- A use and a prune that drops the expired key leave the epoch alone. -/
def touchAndPrune : List Event :=
  [{ now := 90, op := .touchKey "live" 0 }, { now := 100, op := .prune ascendingOrder 10 }]

theorem the_epoch_tells_every_change_of_a_touch_and_a_prune :
    (runEvents (twoKeys 20) touchAndPrune).keys.lookup "dead" = none ∧
      authenticate "dead" [1] .agent 100 (runEvents (twoKeys 20) touchAndPrune) =
        authenticate "dead" [1] .agent 100 (twoKeys 20) := by
  have hby : ∀ e ∈ touchAndPrune, e.prunesBy 100 := by
    intro e he
    simp only [touchAndPrune, mem_cons, not_mem_nil, or_false] at he
    rcases he with rfl | rfl
    · intro o retain h
      cases h
    · intro o retain _
      decide
  have hsame := (the_epoch_tells_every_change (twoKeys 20) [] touchAndPrune).2 (by decide) 100 hby
  exact ⟨by decide, hsame.1 "dead" [1] .agent⟩

end prom_fleet.store
