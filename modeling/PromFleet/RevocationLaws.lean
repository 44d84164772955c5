-- A revoked certificate stays dead in the runs in which each revocation is recorded to last as
-- long as the certificate, and no prune pass before a renewal has retained less than its grace.
-- Neither is so in every run: an entry without an end gets one from the options of its process.
import PromFleet.Revocation

namespace prom_fleet.revocation

open interleave store map_range hub List Prog

variable {ρ ι : Type}

/-! ## The invariant of the hub -/

/-- At `t`, each certificate whose revocation has succeeded is recorded, or a
prune pass has dropped its entry in due time. -/
structure Sound (t : Int) (h : Hub) : Prop where
  dead : ∀ cert ∈ h.dead, cert ∈ h.issued
  retains : ∀ r ∈ h.retains, 0 ≤ r
  refused : ∀ cert ∈ h.dead,
    Recorded cert.serial cert.notAfter h.doc ∨ ∃ r ∈ h.retains, cert.notAfter + r < t

/-- What the hub has done only grows. -/
structure Grows (h h' : Hub) : Prop where
  issued : h.issued ⊆ h'.issued
  dead : h.dead ⊆ h'.dead
  retains : h.retains ⊆ h'.retains

theorem Grows.refl (h : Hub) : Grows h h := ⟨fun _ h => h, fun _ h => h, fun _ h => h⟩

variable {h : Hub}

theorem Grows.trans {h' h'' : Hub} (h₁ : Grows h h') (h₂ : Grows h' h'') : Grows h h'' :=
  ⟨List.Subset.trans h₁.issued h₂.issued, List.Subset.trans h₁.dead h₂.dead,
    List.Subset.trans h₁.retains h₂.retains⟩

theorem Sound.later {t t' : Int} (hs : Sound t h) (ht : t ≤ t') : Sound t' h := by
  refine ⟨hs.dead, hs.retains, fun cert hc => ?_⟩
  rcases hs.refused cert hc with hrec | ⟨r, hr, hlt⟩
  · exact .inl hrec
  · exact .inr ⟨r, hr, by omega⟩

/-- The recorded end is not before the end of a certificate with this serial. -/
def Lasts (rc : RevokedCert) (h : Hub) : Prop :=
  ∀ cert ∈ h.issued, cert.serial = rc.serial → cert.notAfter ≤ rc.notAfter

section Step

variable {o : HubOp} {e : Env} {h h' : Hub} {a : HubAns o}

/-- What a step does to the hub: nothing, or it signs, revokes, prunes or changes
keys. -/
theorem hubAct_cases (ha : hubAct o e h = some (a, h')) : h' = h ∨
    (∃ cert, h' = { h with issued := cert :: h.issued }) ∨
    (∃ rc b, o = .revokeCert rc ∧ store.revokeCert rc e.now h.doc = .ok b ∧
      h' = { h with doc := b.state
                    dead := h.issued.filter (fun c => c.serial = rc.serial) ++ h.dead }) ∨
    (∃ order retain b, store.prune order e.now retain h.doc = .ok b ∧
      h' = { h with doc := b.state, retains := retain :: h.retains }) ∨
    ∃ op, op.ofKeys = true ∧ h' = { h with doc := after h.doc { now := e.now, op := op } } := by
  cases o with
  | sign ttl =>
    simp only [hubAct] at ha
    split at ha
    · cases ha
      exact .inl rfl
    · cases ha
      exact .inr (.inl ⟨_, rfl⟩)
  | revokeCert rc =>
    simp only [hubAct] at ha
    split at ha
    · cases ha
      exact .inl rfl
    split at ha
    · cases ha
      exact .inl rfl
    · rename_i b hb
      cases ha
      exact .inr (.inr (.inl ⟨rc, b, rfl, hb, rfl⟩))
  | prune order retain =>
    simp only [hubAct] at ha
    split at ha
    · cases ha
      exact .inl rfl
    split at ha
    · cases ha
      exact .inl rfl
    · rename_i b hb
      cases ha
      exact .inr (.inr (.inr (.inl ⟨order, retain, b, hb, rfl⟩)))
  | mutateKeys op =>
    simp only [hubAct] at ha
    split at ha
    · cases ha
      exact .inl rfl
    rename_i hop
    cases ha
    refine .inr (.inr (.inr (.inr ⟨op, ?_, rfl⟩)))
    by_contra hkeys
    simp [hkeys] at hop
  | clock | readEpoch | listRevokedCerts => cases ha; exact .inl rfl

theorem hubAct_grows (ha : hubAct o e h = some (a, h')) : Grows h h' := by
  rcases hubAct_cases ha with rfl | ⟨cert, rfl⟩ | ⟨rc, b, _, _, rfl⟩ | ⟨_, retain, b, _, rfl⟩ |
    ⟨op, _, rfl⟩
  · exact .refl h'
  · exact ⟨subset_cons_self _ _, fun _ h => h, fun _ h => h⟩
  · exact ⟨fun _ h => h, subset_append_right _ _, fun _ h => h⟩
  · exact ⟨fun _ h => h, fun _ h => h, subset_cons_self _ _⟩
  · exact ⟨fun _ h => h, fun _ h => h, fun _ h => h⟩

variable {rc : RevokedCert}

theorem sound_revokeCert {b : Applied Unit} (hs : Sound e.now h)
    (hb : store.revokeCert rc e.now h.doc = .ok b) (hl : Lasts rc h) :
    Sound e.now { h with doc := b.state
                         dead := h.issued.filter (fun c => c.serial = rc.serial) ++ h.dead } := by
  have hissued : ∀ cert ∈ h.issued.filter (fun c => c.serial = rc.serial) ++ h.dead,
      cert ∈ h.issued := by
    intro cert hc
    rcases mem_append.mp hc with hc | hc
    · exact (mem_filter.mp hc).1
    · exact hs.dead cert hc
  refine ⟨hissued, hs.retains, fun cert hc => ?_⟩
  have hlong : cert.serial = rc.serial → certLive cert.notAfter rc = true :=
    fun hserial => certLive_iff.mpr (.inr (hl cert (hissued cert hc) hserial))
  obtain ⟨_, _, hstate⟩ := revokeCert_cases hb
  rw [hstate]
  by_cases hserial : cert.serial = rc.serial
  · exact .inl (recorded_setCert e.now hlong fun hne => absurd hserial hne)
  have hdead : cert ∈ h.dead := by
    rcases mem_append.mp hc with hc | hc
    · exact absurd (by simpa using (mem_filter.mp hc).2) hserial
    · exact hc
  exact (hs.refused cert hdead).imp_left fun hrec => recorded_setCert e.now hlong fun _ => hrec

theorem sound_prune {order : PruneOrder} {retain : Int} {b : Applied PruneResult}
    (hs : Sound e.now h) (hb : store.prune order e.now retain h.doc = .ok b) :
    Sound e.now { h with doc := b.state, retains := retain :: h.retains } := by
  obtain ⟨hretain, _⟩ := prune_cases hb
  refine ⟨hs.dead, fun r hr => ?_, fun cert hc => ?_⟩
  · rcases mem_cons.mp hr with rfl | hr
    · exact hretain
    · exact hs.retains r hr
  · rcases hs.refused cert hc with hrec | ⟨r, hr, hlt⟩
    · rcases recorded_prune hb hrec with hrec' | hlt
      · exact .inl hrec'
      · exact .inr ⟨retain, mem_cons_self, hlt⟩
    · exact .inr ⟨r, mem_cons_of_mem _ hr, hlt⟩

/-- A step keeps the invariant, if a revocation in it lasts long enough. -/
theorem hubAct_sound {t : Int} (hs : Sound t h) (ht : t ≤ e.now)
    (hl : ∀ rc, o = .revokeCert rc → Lasts rc h) (ha : hubAct o e h = some (a, h')) :
    Sound e.now h' := by
  have hs := hs.later ht
  rcases hubAct_cases ha with rfl | ⟨cert, rfl⟩ | ⟨rc, b, ho, hb, rfl⟩ | ⟨_, retain, b, hb, rfl⟩ |
    ⟨op, hop, rfl⟩
  · exact hs
  · exact ⟨fun cert hc => mem_cons_of_mem _ (hs.dead cert hc), hs.retains, hs.refused⟩
  · exact sound_revokeCert hs hb (hl rc ho)
  · exact sound_prune hs hb
  · refine ⟨hs.dead, hs.retains, fun cert hc => (hs.refused cert hc).imp_left fun hrec => ?_⟩
    exact hrec.congr (by rw [revokedCerts_after hop])

theorem revoked_of_act (ha : hubAct (.revokeCert rc) e h = some (true, h')) :
    ∃ b, store.revokeCert rc e.now h.doc = .ok b ∧
      h' = { h with doc := b.state
                    dead := h.issued.filter (fun c => c.serial = rc.serial) ++ h.dead } := by
  simp only [hubAct] at ha
  split at ha
  · cases ha
  split at ha
  · cases ha
  rename_i b hb
  cases ha
  exact ⟨b, hb, rfl⟩

/-- A revocation that succeeds kills what was issued under its serial. -/
theorem dead_of_revokeCert (ha : hubAct (.revokeCert rc) e h = some (true, h')) {cert : Certificate}
    (hc : cert ∈ h.issued) (hserial : cert.serial = rc.serial) : cert ∈ h'.dead := by
  obtain ⟨b, _, rfl⟩ := revoked_of_act ha
  exact mem_append_left _ (mem_filter.mpr ⟨hc, by simpa using hserial⟩)

theorem list_of_document {entries : List RevokedCert}
    (ha : hubAct .listRevokedCerts e h = some (.ok entries, h')) :
    entries = store.listRevokedCerts e.visits h.doc := by
  simp only [hubAct, Option.some.injEq, Prod.mk.injEq] at ha
  have hentries := ha.1
  split at hentries
  · cases hentries
    rfl
  · cases hentries

end Step

/-! ## The pact of the calls -/

/-- The condition on the steps of a run. A revocation lasts as long as each certificate of its
serial, and no prune pass has retained less than the grace of a renewal that reads the list. -/
def covered (cfg : ρ → Config) (calls : ι → Request ρ) (i : ι) (o : HubOp ⊕ CacheOp ρ) (_ : Env)
    (w : World ρ) : Bool :=
  match o with
  | .inl (.revokeCert rc) =>
    w.2.1.issued.all fun c => decide (c.serial ≠ rc.serial) || decide (c.notAfter ≤ rc.notAfter)
  | .inl .listRevokedCerts =>
    match calls i with
    | .renew p _ => w.2.1.retains.all fun r => decide ((cfg p).renewGrace ≤ r)
    | _ => true
  | _ => true

/-- The clock has not gone back, and what the hub has done has only grown. -/
def Later (w w' : World ρ) : Prop := w.1 ≤ w'.1 ∧ Grows w.2.1 w'.2.1

theorem Later.refl (w : World ρ) : Later w w := ⟨le_refl _, Grows.refl _⟩

theorem Later.trans {w w' w'' : World ρ} (h : Later w w') (h' : Later w' w'') : Later w w'' :=
  ⟨h.1.trans h'.1, h.2.trans h'.2⟩

def pact (cfg : ρ → Config) (calls : ι → Request ρ) : Pact (HubOp ⊕ CacheOp ρ) ι Env (World ρ) where
  inv w := Sound w.1 w.2.1
  cond i o e w := covered cfg calls i o e w = true
  rely _ := Later
  guar _ := Later
  rely_refl _ := Later.refl
  rely_trans _ _ _ _ := Later.trans
  rely_of_guar _ _ _ _ _ _ _ h := h

section Specs

variable [DecidableEq ρ] {cfg : ρ → Config} {calls : ι → Request ρ} {i : ι} {e : Env}
  {w w' : World ρ} {α : Type}

theorem act_inl {o : HubOp} {a : HubAns o} (h : machine.act i (.inl o) e w = some (a, w')) :
    w.1 ≤ e.now ∧ w'.1 = e.now ∧ hubAct o e w.2.1 = some (a, w'.2.1) := by
  obtain ⟨hle, hnow, hact⟩ := clocked_act h
  exact ⟨hnow ▸ hle, hnow, (sum_inl hact).1⟩

theorem act_inr {o : CacheOp ρ} {a : CacheAns o} (h : machine.act i (.inr o) e w = some (a, w')) :
    w.1 ≤ e.now ∧ w'.1 = e.now ∧ w'.2.1 = w.2.1 ∧
      cacheAct Env.now o e w.2.2 = some (a, w'.2.2) := by
  obtain ⟨hle, hnow, hact⟩ := clocked_act h
  obtain ⟨hcache, hsame⟩ := sum_inr hact
  exact ⟨hnow ▸ hle, hnow, hsame, hcache⟩

variable {o : HubOp ⊕ CacheOp ρ}

theorem act_keeps {a : Either HubAns (@CacheAns ρ) o} (hs : Sound w.1 w.2.1)
    (hc : covered cfg calls i o e w = true) (h : machine.act i o e w = some (a, w')) :
    Sound w'.1 w'.2.1 ∧ Later w w' := by
  cases o with
  | inl o =>
    obtain ⟨hle, hnow, hact⟩ := act_inl h
    refine ⟨?_, hnow ▸ hle, hubAct_grows hact⟩
    rw [hnow]
    refine hubAct_sound hs hle (fun rc ho cert hcert hserial => ?_) hact
    subst ho
    simp only [covered, all_eq_true, Bool.or_eq_true, decide_eq_true_eq] at hc
    exact (hc cert hcert).resolve_left fun hne => hne hserial
  | inr o =>
    obtain ⟨hle, hnow, hsame, _⟩ := act_inr h
    refine ⟨?_, hnow ▸ hle, hsame ▸ Grows.refl _⟩
    rw [hnow, hsame]
    exact hs.later hle

variable {Q : α → World ρ → Prop} {k : Either HubAns (@CacheAns ρ) o → Call ρ α} {w : World ρ}

theorem op_rule (h : ∀ t e a u, Later w t → Sound t.1 t.2.1 → covered cfg calls i o e t = true →
      machine.act i o e t = some (a, u) → Sound u.1 u.2.1 → Later t u →
      Holds machine (pact cfg calls) i (k a) Q u) :
    Holds machine (pact cfg calls) i (.op o k) Q w := by
  intro t ht hs e hc a u hu
  obtain ⟨hsound, hlater⟩ := act_keeps hs hc hu
  exact ⟨hsound, hlater, h t e a u ht hs hc hu hsound hlater⟩

theorem quiet_rule (h : ∀ a u, Later w u → Holds machine (pact cfg calls) i (k a) Q u) :
    Holds machine (pact cfg calls) i (.op o k) Q w :=
  op_rule fun _ _ a u ht _ _ _ _ hu => h a u (ht.trans hu)

theorem handleRevokeCert_spec (opts : Config) (req : RevokeRequest) (w : World ρ) :
    Holds machine (pact cfg calls) i (handleRevokeCert opts req) (fun x w' => x = .noContent →
        ∀ cert ∈ w.2.1.issued, cert.serial = req.serial → cert ∈ w'.2.1.dead) w := by
  simp only [handleRevokeCert, clock, revokeCert, inl_call, call_bind]
  split
  · exact fun _ _ _ h => by cases h
  split
  · exact fun _ _ _ h => by cases h
  split
  · exact fun _ _ _ h => by cases h
  refine quiet_rule fun now u hu => ?_
  generalize (if isZero req.notAfter = true then now + opts.spokeCertTTL
    else req.notAfter) = notAfter
  split
  · exact fun _ _ _ h => by cases h
  refine op_rule fun t e stored v ht _ _ ha _ _ => ?_
  cases stored with
  | false => exact fun _ _ _ h => by cases h
  | true =>
    intro w' hw' _ _ cert hcert hserial
    have hissued : cert ∈ t.2.1.issued := (hu.trans ht).2.issued hcert
    exact hw'.2.dead (dead_of_revokeCert (act_inl ha).2.2 hissued hserial)

/-- A refresh that lists puts each certificate into the cache that was dead when
it began and has not ended when it is done. -/
theorem relist_spec (p : ρ) (epoch : Nat) (w : World ρ) :
    Holds machine (pact cfg calls) i (relist (keeper p) epoch)
      (fun x _ => ∀ serials now, x = .ok (.relisted serials now) →
        ∀ cert ∈ w.2.1.dead, now ≤ cert.notAfter → cert.serial ∈ serials) w := by
  simp only [relist, keeper, time, install, inl_call, inr_call, call_bind]
  refine op_rule fun t e a u ht hs _ ha _ hu => ?_
  cases a with
  | error err => exact fun _ _ _ _ _ h => by cases h
  | ok entries =>
    refine op_rule fun t' e' now v ht' _ _ ha' _ _ => ?_
    refine quiet_rule fun _ v' _ => ?_
    rintro w' _ _ _ _ ⟨⟩ cert hcert hlive
    -- the entry cannot have been dropped before the list was read
    have hclock : t.1 ≤ now := by
      obtain ⟨hle, _, _, hread⟩ := act_inr ha'
      simp only [cacheAct, Option.some.injEq, Prod.mk.injEq] at hread
      rw [← hread.1]
      exact hu.1.trans (ht'.1.trans hle)
    have hrec : Recorded cert.serial cert.notAfter t.2.1.doc := by
      rcases hs.refused cert (ht.2.dead hcert) with hrec | ⟨r, hr, hlt⟩
      · exact hrec
      · have hr0 := hs.retains r hr
        omega
    rw [list_of_document (act_inl ha).2.2]
    exact hrec.mem_liveSerials _ hlive

theorem refreshLocked_spec (p : ρ) (w : World ρ) :
    Holds machine (pact cfg calls) i (refreshLocked (keeper p))
      (fun x _ => ∀ serials now, x = .ok (.relisted serials now) →
        ∀ cert ∈ w.2.1.dead, now ≤ cert.notAfter → cert.serial ∈ serials) w := by
  simp only [refreshLocked, peek, time, touch, inr_call, call_bind]
  refine quiet_rule fun c u hu => quiet_rule fun now u' hu' => ?_
  split
  · exact fun _ _ _ _ _ h => by cases h
  refine quiet_rule fun a v hv => ?_
  cases a with
  | error err => exact fun _ _ _ _ _ h => by cases h
  | ok epoch =>
    refine quiet_rule fun c' v' hv' => ?_
    split
    · exact quiet_rule fun _ _ _ => quiet_rule fun _ _ _ _ _ _ _ _ h => by cases h
    · refine (relist_spec p epoch v').mono fun x _ _ hx serials now hrel cert hcert => ?_
      exact hx serials now hrel cert ((((hu.trans hu').trans hv).trans hv').2.dead hcert)

theorem refresh_spec (p : ρ) (w : World ρ) : Holds machine (pact cfg calls) i (refresh (keeper p))
      (fun x _ => ∀ serials now, x = .ok (.relisted serials now) →
        ∀ cert ∈ w.2.1.dead, now ≤ cert.notAfter → cert.serial ∈ serials) w := by
  simp only [refresh, lock, unlock, inr_call, call_bind]
  refine op_rule fun t e _ u ht _ _ _ hs hu => ?_
  refine (refreshLocked_spec p u).seq hs fun x _ _ hx => ?_
  refine quiet_rule fun _ _ _ => ?_
  intro _ _ _ serials now hrel cert hcert
  exact hx serials now hrel cert ((ht.trans hu).2.dead hcert)

theorem verifyChainAllowingExpiry_spec (req : RenewRequest) (grace : Int) (w : World ρ) :
    Holds machine (pact cfg calls) i (verifyChainAllowingExpiry req grace)
      (fun _ w' => Later w w') w := by
  simp only [verifyChainAllowingExpiry, clock, inl_call, call_bind]
  refine quiet_rule fun now u hu => ?_
  split
  · exact fun w' hw' _ => hu.trans hw'
  refine quiet_rule fun now' u' hu' => ?_
  split
  · exact fun w' hw' _ => (hu.trans hu').trans hw'
  split
  · exact fun w' hw' _ => (hu.trans hu').trans hw'
  · exact fun w' hw' _ => (hu.trans hu').trans hw'

/-- A renewal of a certificate that was dead when it began succeeds only after the
grace of the process has ended. -/
theorem handleRenew_spec {p : ρ} {req : RenewRequest} (hcall : calls i = .renew p req)
    (hw : Sound w.1 w.2.1) : Holds machine (pact cfg calls) i (handleRenew (cfg p) req)
      (fun x w' => ∀ cert, x = .issued cert → req.leaf ∈ w.2.1.dead →
        req.leaf.notAfter + (cfg p).renewGrace < w'.1) w := by
  simp only [handleRenew, listRevokedCerts, sign, inl_call, call_bind]
  split
  · exact fun _ _ _ _ h => by cases h
  refine (verifyChainAllowingExpiry_spec req (cfg p).renewGrace w).seq hw fun verified u _ hu => ?_
  split
  · exact fun _ _ _ _ h => by cases h
  refine op_rule fun t e a v ht hs hc ha _ hv => ?_
  cases a with
  | error err => exact fun _ _ _ _ h => by cases h
  | ok entries =>
    dsimp only
    split
    · exact fun _ _ _ _ h => by cases h
    rename_i hmiss
    have hdropped : req.leaf ∈ w.2.1.dead → req.leaf.notAfter + (cfg p).renewGrace < t.1 := by
      intro hdead
      rcases hs.refused req.leaf ((hu.trans ht).2.dead hdead) with hrec | ⟨r, hr, hlt⟩
      · obtain ⟨rc, hrc, hserial, _⟩ := hrec.listed e.visits
        refine absurd ?_ hmiss
        rw [list_of_document (act_inl ha).2.2]
        simp only [contains_eq_mem, decide_eq_true_eq, mem_map]
        exact ⟨rc, hrc, hserial⟩
      · simp only [covered, hcall, all_eq_true, decide_eq_true_eq] at hc
        have hgrace := hc r hr
        omega
    split
    · exact fun _ _ _ _ h => by cases h
    refine quiet_rule fun cert? v' hv' => ?_
    cases cert? with
    | none => exact fun _ _ _ _ h => by cases h
    | some cert =>
      intro w' hw' _ _ _ hdead
      exact lt_of_lt_of_le (hdropped hdead) (hv.1.trans (hv'.1.trans hw'.1))

/-- What a call that began in `w` promises. -/
def Promise (cfg : ρ → Config) (w : World ρ) : Request ρ → Outcome → World ρ → Prop
  | .revoke _ _ _ serial _, .revoked .noContent, w' =>
    ∀ cert ∈ w.2.1.issued, cert.serial = serial → cert ∈ w'.2.1.dead
  | .refresh _, .refreshed (.ok (.relisted serials now)), _ =>
    ∀ cert ∈ w.2.1.dead, now ≤ cert.notAfter → cert.serial ∈ serials
  | .renew p req, .renewed (.issued _), w' =>
    req.leaf ∈ w.2.1.dead → req.leaf.notAfter + (cfg p).renewGrace < w'.1
  | _, _, _ => True

theorem program_spec (i : ι) (hw : Sound w.1 w.2.1) :
    Holds machine (pact cfg calls) i ((calls i).program cfg) (Promise cfg w (calls i)) w := by
  cases hcall : calls i with
  | revoke p guarded bodyOk serial reason =>
    refine .map ((handleRevokeCert_spec (cfg p) _ w).mono fun x w' _ hx => ?_)
    cases x with
    | noContent => exact hx rfl
    | _ => trivial
  | renew p req =>
    refine .map ((handleRenew_spec hcall hw).mono fun x w' _ hx => ?_)
    cases x with
    | issued cert => exact hx cert rfl
    | _ => trivial
  | refresh p =>
    refine .map ((refresh_spec p w).mono fun x w' _ hx => ?_)
    match x, hx with
    | .ok (.relisted serials now), hx => exact hx serials now rfl
    | .ok .fresh, _ => trivial
    | .ok .unchanged, _ => trivial
    | .error _, _ => trivial
  | issue | prune | keys => exact quiet_rule fun _ _ _ _ _ _ => trivial

end Specs

/-! ## Runs -/

theorem sound_initial (start : State) (time : Int) :
    Sound (initial start time : World ρ).1 (initial start time : World ρ).2.1 :=
  ⟨fun _ h => (by cases h), fun _ h => (by cases h), fun _ h => (by cases h)⟩

section Runs

variable [DecidableEq ρ] [DecidableEq ι] {cfg : ρ → Config} {start : State} {time : Int}
  {calls : ι → Request ρ} {ls₁ ls₂ : List (ι × Env)}
  {c₁ c₂ : Conf (Either HubAns (@CacheAns ρ)) ι (World ρ) Outcome}

/-- A call that begins after the first part of a run keeps its promise from the
state at which it began. -/
theorem promise_of_late (hm : Meets machine (fun i o e w => covered cfg calls i o e w = true)
      (system cfg start time calls) (ls₁ ++ ls₂))
    (hr₁ : run machine (system cfg start time calls) ls₁ = some c₁)
    (hr₂ : run machine c₁ ls₂ = some c₂) {i : ι} (hi : ∀ l ∈ ls₁, l.1 ≠ i) {x : Outcome}
    (hd : c₂.thread i = .done x) : Promise cfg c₁.shared (calls i) x c₂.shared := by
  obtain ⟨hm₁, hm₂⟩ := meets_append hm hr₁
  have hinv : (pact cfg calls).inv (system cfg start time calls).shared := sound_initial start time
  exact late_of_run (fun _ _ _ _ h => h) hinv
    (fun j => program_spec j hinv) hm₁ hr₁ hi hm₂ hr₂ (fun hw _ => program_spec i hw) hd

/-- After a revocation without a `notAfter` of a certificate that was issued before it, in every run
whose steps are covered, each refresh that lists by the end of the certificate has the serial, and
each renewal that ends within the grace of its process is refused. -/
theorem a_revoked_certificate_stays_dead_if_covered (cfg : ρ → Config) (start : State)
    (time : Int) (calls : ι → Request ρ) (ls₀ ls₁ ls₂ : List (ι × Env))
    (c₀ c₁ c₂ : Conf (Either HubAns (@CacheAns ρ)) ι (World ρ) Outcome)
    (hm : Meets machine (fun i o e w => covered cfg calls i o e w = true)
      (system cfg start time calls) (ls₀ ++ ls₁ ++ ls₂))
    (hr₀ : run machine (system cfg start time calls) ls₀ = some c₀)
    (hr₁ : run machine c₀ ls₁ = some c₁) (hr₂ : run machine c₁ ls₂ = some c₂)
    (cert : Certificate) (hcert : cert ∈ c₀.shared.2.1.issued) (j : ι) (p : ρ)
    (guarded bodyOk : Bool) (reason : String)
    (hcall : calls j = .revoke p guarded bodyOk cert.serial reason) (hj : ∀ l ∈ ls₀, l.1 ≠ j)
    (hdone : c₁.thread j = .done (.revoked .noContent)) :
    (∀ i q serials now, calls i = .refresh q → (∀ l ∈ ls₀ ++ ls₁, l.1 ≠ i) →
      c₂.thread i = .done (.refreshed (.ok (.relisted serials now))) → now ≤ cert.notAfter →
      cert.serial ∈ serials) ∧
    ∀ i q req cert', calls i = .renew q req → req.leaf = cert → (∀ l ∈ ls₀ ++ ls₁, l.1 ≠ i) →
      c₂.shared.1 ≤ cert.notAfter + (cfg q).renewGrace →
      c₂.thread i ≠ .done (.renewed (.issued cert')) := by
  have hr₀₁ : run machine (system cfg start time calls) (ls₀ ++ ls₁) = some c₁ :=
    run_append.mpr ⟨c₀, hr₀, hr₁⟩
  have hdead : cert ∈ c₁.shared.2.1.dead := by
    have hpromise := promise_of_late (meets_append hm hr₀₁).1 hr₀ hr₁ hj hdone
    rw [hcall] at hpromise
    exact hpromise cert hcert rfl
  refine ⟨fun i q serials now hi hlate hd hlive => ?_,
    fun i q req cert' hi hleaf hlate htime hd => ?_⟩
  · have hpromise := promise_of_late hm hr₀₁ hr₂ hlate hd
    rw [hi] at hpromise
    exact hpromise cert hdead hlive
  · have hpromise := promise_of_late hm hr₀₁ hr₂ hlate hd
    rw [hi] at hpromise
    subst hleaf
    have hlt := hpromise hdead
    omega

end Runs

/-! ## A shorter lifetime -/

def days (n : Int) : Int := n * 86400000000000

/-- The options of a process whose certificates live for `ttl`. -/
def issuesFor (ttl : Int) (h : 0 < ttl) : Config :=
  { spokeCertTTL := ttl, renewGrace := 0, stateRetention := 0, ttl_pos := h
    grace_nonneg := Int.le_refl _, retention_nonneg := Int.le_refl _ }

/-- The second process was started with certificates that live for one hour. -/
def shortened : Bool → Config
  | false => issuesFor (days 14) (by decide)
  | true => issuesFor 3600000000000 (by decide)

/-- The certificate that the first process issues on the first day. -/
def spokeCert : Certificate :=
  { serialNumber := 10, notBefore := days 1 - clockSkew, notAfter := days 15 }

/-- The first process issues it. The second one revokes it, refreshes its cache,
prunes, and gets it for a renewal. -/
def revival : Fin 5 → Request Bool
  | 0 => .issue false
  | 1 => .revoke true true true "a" "lost"
  | 2 => .refresh true
  | 3 => .prune true ascendingOrder
  | 4 => .renew true
      { guarded := true, nonceOk := true, leaf := spokeCert, trusted := true, trustedThen := true
        csrOk := true, proven := true }

def onDay (n : Int) (i : Fin 5) (steps : Nat) : List (Fin 5 × Env) :=
  List.replicate steps (i, { now := days n, up := true, rootNotAfter := days 3650
                             serialNumber := 10, visits := ascending })

/-- With one lifetime for all, the serial is in the cache and the renewal is
refused. -/
theorem a_revoked_certificate_stays_dead_if_covered_by_one_lifetime : ∃ c₀ c₁ c₂ serials,
      run machine (system (fun _ => shortened false) newState 0 revival) (onDay 1 0 1) = some c₀ ∧
      run machine c₀ (onDay 2 1 2) = some c₁ ∧
      run machine c₁ (onDay 3 2 9 ++ onDay 4 3 1 ++ onDay 5 4 2) = some c₂ ∧
      c₂.thread 2 = .done (.refreshed (.ok (.relisted serials (days 3)))) ∧
      spokeCert.serial ∈ serials ∧ ∀ cert', c₂.thread 4 ≠ .done (.renewed (.issued cert')) := by
  have hdead := a_revoked_certificate_stays_dead_if_covered (fun _ => shortened false) newState 0
    revival (onDay 1 0 1) (onDay 2 1 2) (onDay 3 2 9 ++ onDay 4 3 1 ++ onDay 5 4 2) _ _ _
    (by decide) rfl rfl rfl spokeCert (mem_singleton_self _) 1 true true true "lost" rfl (by decide)
    rfl
  exact ⟨_, _, _, _, rfl, rfl, rfl, rfl, hdead.1 2 true _ (days 3) rfl (by decide) rfl (by decide),
    fun cert' => hdead.2 4 true _ cert' rfl rfl (by decide) (by decide)⟩

/-- On its third day the cache of the second process misses the serial, and on
the fifth day the certificate is renewed, ten days before its end. -/
theorem a_shorter_lifetime_revives_a_revoked_certificate :
    ∃ c₀ c₁ c₂ cert', run machine (system shortened newState 0 revival) (onDay 1 0 1) = some c₀ ∧
      c₀.shared.2.1.issued = [spokeCert] ∧ run machine c₀ (onDay 2 1 2) = some c₁ ∧
      c₁.thread 1 = .done (.revoked .noContent) ∧
      run machine c₁ (onDay 3 2 9 ++ onDay 4 3 1 ++ onDay 5 4 3) = some c₂ ∧
      c₂.thread 2 = .done (.refreshed (.ok (.relisted [] (days 3)))) ∧
      (c₂.shared.2.2 true).serials = [] ∧ c₂.shared.1 = days 5 ∧
      c₂.thread 4 = .done (.renewed (.issued cert')) ∧ days 5 < spokeCert.notAfter :=
  ⟨_, _, _, _, rfl, rfl, rfl, rfl, rfl, rfl, rfl, rfl, rfl, by decide⟩

end prom_fleet.revocation
