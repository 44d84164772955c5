-- The soundness of the verifier: the answer of a call that succeeds is one that the document
-- gives at some instant of that call. An entry of the cache can be put in after the purge that
-- should have dropped it, so the proof rests on the epoch in the entry, read before the key.
import PromFleet.PruneLaws
import PromFleet.Verifier

namespace prom_fleet.authn

open interleave fleet store lru List Prog

variable {D ι : Type} {V : Verifier D} {presented : String → Prop} {start : State}

/-! ## What a document says about a token -/

/-- The document accepts the token for the class at `t`, and the principal has
the rights of its key. -/
def Accepts (V : Verifier D) (raw : String) (cls : KeyClass) (t : Int) (p : Principal)
    (s : State) : Prop :=
  ∃ kid secret key, V.parse raw = some (cls, kid, secret) ∧ store.getKey kid s = .ok key ∧
    key.secretHMAC = V.hmac secret ∧ key.cls = cls ∧ key.revoked = false ∧
    key.expired t = false ∧ p.scope = key.scope ∧ p.role = roleOf key

variable {s : State}

theorem getKey_ok {kid : String} {key : Key} :
    store.getKey kid s = .ok key ↔ ∃ r, s.keys.lookup kid = some r ∧ r.value = key := by
  unfold store.getKey
  cases s.keys.lookup kid <;> simp

variable {cls : KeyClass} {t : Int}

theorem acceptKey_some {hmac : Bytes} {k : Key} {a : Accepted} : acceptKey hmac cls t k = some a ↔
      k.secretHMAC = hmac ∧ k.cls = cls ∧ k.revoked = false ∧ k.expired t = false ∧
        a = { scope := k.scope, role := roleOf k, enrollment := k.enrollment } := by
  unfold acceptKey
  split_ifs with hmac hcls hrev hexp
  · exact ⟨nofun, fun h => absurd h.1 hmac⟩
  · exact ⟨nofun, fun h => absurd h.2.1 hcls⟩
  · exact ⟨nofun, fun h => by simp [hrev] at h⟩
  · exact ⟨nofun, fun h => by simp [hexp] at h⟩
  · refine ⟨fun h => ?_, fun h => by rw [h.2.2.2.2]⟩
    cases h
    exact ⟨not_not.mp hmac, not_not.mp hcls, by simpa using hrev, by simpa using hexp, rfl⟩

variable {p : Principal} {raw : String}

theorem accepts_iff : Accepts V raw cls t p s ↔
      ∃ kid secret a, V.parse raw = some (cls, kid, secret) ∧
        authenticate kid (V.hmac secret) cls t s = some a ∧ p.scope = a.scope ∧
        p.role = a.role := by
  constructor
  · rintro ⟨kid, secret, key, hparse, hkey, hmac, hcls, hrev, hexp, hscope, hrole⟩
    obtain ⟨r, hr, rfl⟩ := getKey_ok.mp hkey
    let a : Accepted :=
      { scope := r.value.scope, role := roleOf r.value, enrollment := r.value.enrollment }
    refine ⟨kid, secret, a, hparse, ?_, hscope, hrole⟩
    rw [authenticate, hr, Option.bind_some]
    exact acceptKey_some.mpr ⟨hmac, hcls, hrev, hexp, rfl⟩
  · rintro ⟨kid, secret, a, hparse, hauth, hscope, hrole⟩
    obtain ⟨r, hr, ha⟩ := Option.bind_eq_some_iff.mp hauth
    obtain ⟨hmac, hcls, hrev, hexp, rfl⟩ := acceptKey_some.mp ha
    exact ⟨kid, secret, r.value, hparse, getKey_ok.mpr ⟨r, hr, rfl⟩, hmac, hcls, hrev, hexp,
      hscope, hrole⟩

theorem Accepts.alike {t₀ : Int} {s' : State} (h : Accepts V raw cls t p s) (hal : Alike t₀ s s')
    (ht : t₀ ≤ t) : Accepts V raw cls t p s' := by
  obtain ⟨kid, secret, a, hparse, hauth, hp⟩ := accepts_iff.mp h
  rw [← hal.keys kid _ cls t ht] at hauth
  exact accepts_iff.mpr ⟨kid, secret, a, hparse, hauth, hp⟩

/-! ## Instants -/

/-- Only events have come in, and the clock has not gone back. -/
structure Later (w w' : World D) : Prop where
  events : w.events <+: w'.events
  time : w.time ≤ w'.time

theorem Later.refl (w : World D) : Later w w := ⟨prefix_rfl, le_refl _⟩

variable {w w' : World D}

theorem Later.trans {w'' : World D} (h : Later w w') (h' : Later w' w'') : Later w w'' :=
  ⟨h.events.trans h'.events, h.time.trans h'.time⟩

/-- The document has met `P` at some instant from `w` to `w'`. -/
def Between (start : State) (w w' : World D) (P : State → Prop) : Prop :=
  ∃ es, w.events <+: es ∧ es <+: w'.events ∧ P (runEvents start es)

variable {w₀ : World D}

theorem Between.widen {w₁ : World D} {P : State → Prop} (h : Between start w w' P) (h₀ : Later w₀ w)
    (h₁ : Later w' w₁) : Between start w₀ w₁ P := by
  obtain ⟨es, hw, hw', hp⟩ := h
  exact ⟨es, h₀.events.trans hw, hw'.trans h₁.events, hp⟩

/-! ## The entries of the cache -/

variable (V presented start) in
/-- The entry comes from a token that was presented: the epoch was read, and
after that the document accepted the token, up to the expiry in the entry. -/
def Backed (es : List Event) (sum : D) (e : CacheEntry) : Prop :=
  ∃ raw cls xs ys, presented raw ∧ V.sum256 raw = sum ∧ xs <+: ys ∧ ys <+: es ∧
    (runEvents start xs).epoch = e.epoch ∧
    ∀ t, lapsed e.keyExpiry t = false → Accepts V raw cls t e.principal (runEvents start ys)

variable {e : CacheEntry} {sum : D}

theorem Backed.later {es es' : List Event} (h : Backed V presented start es sum e)
    (hes : es <+: es') : Backed V presented start es' sum e := by
  obtain ⟨raw, cls, xs, ys, hraw, hsum, hxy, hys, hrest⟩ := h
  exact ⟨raw, cls, xs, ys, hraw, hsum, hxy, hys.trans hes, hrest⟩

variable {xs ys : List Event}

theorem epoch_mono (start : State) (h : xs <+: ys) :
    (runEvents start xs).epoch ≤ (runEvents start ys).epoch := by
  obtain ⟨zs, rfl⟩ := h
  rw [runEvents_append]
  exact epoch_le_runEvents _ zs

/-- Two documents of a run with one epoch, which has not wrapped, answer alike from the last prune
between them on. -/
theorem alike_of_epoch (start : State) (h : xs <+: ys) (ht : ∀ e ∈ ys, e.prunesBy t)
    (he : (runEvents start ys).epoch = (runEvents start xs).epoch) :
    Alike t (runEvents start xs) (runEvents start ys) := by
  obtain ⟨zs, rfl⟩ := h
  rw [runEvents_append] at he ⊢
  exact runEvents_alike (fun e hz => ht e (mem_append_right _ hz)) he

/-- An entry with the epoch that a call has read is as good as the document at some instant of
the call. If the key was read before the call, the epoch has stood still since then. -/
theorem Backed.current (hb : Backed V presented start w.events sum e)
    (hpast : ∀ x ∈ w₀.events, x.prunesBy w₀.time)
    (hep : Between start w₀ w fun s => s.epoch = e.epoch)
    (ht : w₀.time ≤ t) (hl : lapsed e.keyExpiry t = false) :
    ∃ raw cls, presented raw ∧ V.sum256 raw = sum ∧
      Between start w₀ w (Accepts V raw cls t e.principal) := by
  obtain ⟨raw, cls, xs, ys, hraw, hsum, hxy, hys, hxe, hacc⟩ := hb
  obtain ⟨us, hu₀, hu, hue⟩ := hep
  refine ⟨raw, cls, hraw, hsum, ?_⟩
  rcases prefix_or_prefix_of_prefix hys (hu₀.trans hu) with hy | hy
  · have hle := epoch_mono start hxy
    have hle' := epoch_mono start hy
    have hle'' := epoch_mono start hu₀
    have hal := alike_of_epoch start hy hpast (by omega)
    exact ⟨w₀.events, prefix_rfl, hu₀.trans hu, (hacc t hl).alike hal ht⟩
  · exact ⟨ys, hy, hys, hacc t hl⟩

/-! ## What a step does -/

variable (V presented start w) in
/-- Every document is the one after the events so far, no prune has read a clock ahead of the
verifier's, and every entry of the cache is backed. -/
structure Sound : Prop where
  doc : w.doc = runEvents start w.events
  past : ∀ e ∈ w.events, e.prunesBy w.time
  pos : ∀ x ∈ w.pos.entries, Backed V presented start w.events x.1 x.2

/-- A prune does not read a clock ahead of the verifier's. -/
def PrunesInTime (_ : ι) (o : Op D) (_ : Env) (w : World D) : Prop :=
  match o with
  | .apply ev => ev.prunesBy w.time
  | _ => True

instance (i : ι) (o : Op D) (e : Env) (w : World D) : Decidable (PrunesInTime i o e w) :=
  match o with
  | .apply ev => inferInstanceAs (Decidable (ev.prunesBy w.time))
  | .clock | .readEpoch | .setEpoch _ | .posGet _ | .posPut _ _ | .posRemove _ | .posPurge
  | .negGet _ | .negPut _ _ | .negRemove _ | .negPurge | .allow _ _ | .getKey _ =>
    inferInstanceAs (Decidable True)

/-- The operation puts no entry into the cache. -/
def Op.plain : Op D → Bool
  | .posPut _ _ => false
  | _ => true

section Steps

variable [DecidableEq D] {i : ι} {o : Op D} {e : Env} {a : Ans o} {w w' : World D}

theorem act_events (h : act o e w = some (a, w')) :
    w'.events = w.events ∨ ∃ ev, w'.events = w.events ++ [ev] := by
  cases o with
  | clock =>
    simp only [act] at h
    split at h <;> cases h
    exact .inl rfl
  | apply ev => cases h; exact .inr ⟨ev, rfl⟩
  | _ => cases h; exact .inl rfl

theorem act_later (h : act o e w = some (a, w')) : Later w w' := by
  refine ⟨?_, ?_⟩
  · rcases act_events h with he | ⟨ev, he⟩
    · rw [he]
    · rw [he]
      exact prefix_append _ _
  · cases o with
    | clock =>
      simp only [act] at h
      split at h <;> cases h
      assumption
    | _ => cases h; exact le_refl _

theorem act_sound (hw : Sound V presented start w) (htime : PrunesInTime i o e w)
    (hput : ∀ sum x, o = .posPut sum x → Backed V presented start w.events sum x)
    (h : act o e w = some (a, w')) : Sound V presented start w' := by
  cases o with
  | clock =>
    simp only [act] at h
    split at h <;> cases h
    exact ⟨hw.doc, fun x hx => (hw.past x hx).mono (by assumption), hw.pos⟩
  | apply ev =>
    cases h
    refine ⟨?_, fun x hx => ?_, fun x hx => (hw.pos x hx).later (prefix_append _ _)⟩
    · rw [runEvents_append, ← hw.doc]
      rfl
    rcases mem_append.mp hx with hx | hx
    · exact hw.past x hx
    · rw [mem_singleton.mp hx]
      exact htime
  | posGet sum =>
    cases h
    exact ⟨hw.doc, hw.past, fun x hx => hw.pos x (mem_get hx)⟩
  | posPut sum entry =>
    cases h
    refine ⟨hw.doc, hw.past, fun x hx => ?_⟩
    rcases mem_put hx with rfl | hx
    · exact hput sum entry rfl
    · exact hw.pos x hx
  | posRemove sum =>
    cases h
    exact ⟨hw.doc, hw.past, fun x hx => hw.pos x (mem_remove hx)⟩
  | posPurge =>
    cases h
    exact ⟨hw.doc, hw.past, fun x hx => by cases hx⟩
  | _ => cases h; exact ⟨hw.doc, hw.past, hw.pos⟩

end Steps

variable (V presented start) in
/-- What the calls owe each other. -/
def pact : Pact (Op D) ι Env (World D) where
  inv := Sound V presented start
  cond := PrunesInTime
  rely _ := Later
  guar _ := Later
  rely_refl _ := Later.refl
  rely_trans _ _ _ _ := Later.trans
  rely_of_guar _ _ _ _ _ _ _ h := h

/-- The program of call `i` keeps the pact, and ends as it says. -/
abbrev Keeps [DecidableEq D] (V : Verifier D) (presented : String → Prop) (start : State) (i : ι)
    {α : Type} := Holds (α := α) machine (pact V presented start) i

/-! ## What the parts of a call promise -/

section Specs

variable [DecidableEq D] {i : ι} {α : Type} {Q : α → World D → Prop} {o : Op D}
  {k : Ans o → Call D α} {w : World D}

theorem op_rule (ho : o.plain = true)
    (h : ∀ t e a u, Later w t → Sound V presented start t → act o e t = some (a, u) →
      Sound V presented start u → Keeps V presented start i (k a) Q u) :
    Keeps V presented start i (.op o k) Q w := by
  intro t ht hs e htime a u hu
  have hput : ∀ sum x, o = .posPut sum x → Backed V presented start t.events sum x := by
    intro sum x hx
    subst hx
    cases ho
  have hu' := act_sound (i := i) hs htime hput hu
  exact ⟨hu', act_later hu, h t e a u ht hs hu hu'⟩

theorem quiet_rule (ho : o.plain = true) (h : ∀ a u, Later w u → Sound V presented start u →
      Keeps V presented start i (k a) Q u) : Keeps V presented start i (.op o k) Q w :=
  op_rule ho fun _ _ a u ht _ ha hu => h a u (ht.trans (act_later ha)) hu

theorem put_rule {x : CacheEntry} {k : Unit → Call D α}
    (hx : Backed V presented start w.events sum x)
    (h : ∀ u, Later w u → Keeps V presented start i (k ()) Q u) :
    Keeps V presented start i (.op (.posPut sum x) k) Q w := by
  intro t ht hs e htime a u hu
  have hu : act (.posPut sum x) e t = some (a, u) := hu
  have htime : PrunesInTime i (.posPut sum x) e t := htime
  have hlater := act_later hu
  refine ⟨act_sound hs htime (fun sum' x' hx' => ?_) hu, hlater, h u (ht.trans hlater)⟩
  cases hx'
  exact hx.later ht.events

/-- What no later state takes away still holds at the end. -/
theorem keep_rule {F : World D → Prop} (hF : ∀ w w', Later w w' → F w → F w') {p : Call D α}
    (hw : F w) (h : Keeps V presented start i p Q w) :
    Keeps V presented start i p (fun a w' => Q a w' ∧ F w') w :=
  Holds.frame hF hF hw h

theorem syncEpoch_spec (w : World D) : Keeps V presented start i syncEpoch
      (fun x w' => ∀ epoch, x = some epoch → Between start w w' fun s => s.epoch = epoch) w := by
  rw [syncEpoch, call_bind]
  refine op_rule rfl fun t e a u ht hs ha _ => ?_
  have hread : ∀ epoch, a = some epoch → t.doc.epoch = epoch ∧ u = t := by
    intro epoch he
    cases ha
    split at he <;> cases he
    exact ⟨rfl, rfl⟩
  cases a with
  | none => exact fun _ _ _ _ h => by cases h
  | some epoch =>
    obtain ⟨hep, rfl⟩ := hread epoch rfl
    have hnow : ∀ w', Later u w' → ∀ ep, some epoch = some ep →
        Between start w w' fun s => s.epoch = ep := by
      rintro w' hw' _ ⟨⟩
      exact ⟨u.events, ht.events, hw'.events, hs.doc ▸ hep⟩
    refine quiet_rule rfl fun changed v hv _ => ?_
    cases changed with
    | false => exact fun w' hw' _ => hnow w' (hv.trans hw')
    | true =>
      refine quiet_rule rfl fun _ v' hv' _ => ?_
      refine quiet_rule rfl fun _ v'' hv'' _ => ?_
      exact fun w' hw' _ => hnow w' (((hv.trans hv').trans hv'').trans hw')

theorem fromNegative_spec (sum : D) (now : Int) (w : World D) :
    Keeps V presented start i (fromNegative V sum now) (fun x _ => ∀ v, x ≠ some (.ok v)) w := by
  rw [fromNegative, call_bind]
  refine quiet_rule rfl fun a u _ _ => ?_
  cases a with
  | none => exact fun _ _ _ _ h => by cases h
  | some e =>
    dsimp only
    split
    · exact fun _ _ _ _ h => by cases h
    · exact quiet_rule rfl fun _ _ _ _ _ _ _ _ h => by cases h

/-- What the cache accepts comes from a backed entry of the epoch. -/
theorem fromCache_spec (sum : D) (epoch : Nat) (now : Int) (w : World D) :
    Keeps V presented start i (fromCache V sum epoch now)
      (fun x w' => ∀ v, x = some (.ok v) → v.clock = now ∧
        ∃ e, Backed V presented start w'.events sum e ∧ e.epoch = epoch ∧
          lapsed e.keyExpiry now = false ∧ v.principal = e.principal) w := by
  rw [fromCache, call_bind]
  refine op_rule rfl fun t env a u _ hs ha _ => ?_
  have hhit : ∀ e, a = some e → Backed V presented start u.events sum e := by
    intro e he
    cases ha
    rw [get_value] at he
    exact hs.pos (sum, e) (mem_of_find he)
  have hneg : ∀ u, Keeps V presented start i (fromNegative V sum now)
      (fun x w' => ∀ v, x = some (.ok v) → v.clock = now ∧
        ∃ e, Backed V presented start w'.events sum e ∧ e.epoch = epoch ∧
          lapsed e.keyExpiry now = false ∧ v.principal = e.principal) u := fun u =>
    (fromNegative_spec sum now u).mono fun x _ _ h v hv => absurd hv (h v)
  cases a with
  | none => exact hneg u
  | some e =>
    dsimp only
    split
    · exact quiet_rule rfl fun _ u' _ _ => hneg u'
    rename_i hfresh
    split
    · exact quiet_rule rfl fun _ _ _ _ _ _ _ _ h => by cases h
    rename_i hl
    rintro w' hw' _ v ⟨⟩
    refine ⟨rfl, e, (hhit e rfl).later hw'.events, ?_, by simpa using hl, rfl⟩
    by_contra hne
    exact hfresh (.inl hne)

variable {kid raw : String} {secret : Bytes} {want : KeyClass}

/-- What the store accepts is accepted by the document of that read, up to the
expiry that comes with it. -/
theorem verifyAgainstStore_spec (hparse : V.parse raw = some (want, kid, secret)) (now : Int)
    (w : World D) : Keeps V presented start i (verifyAgainstStore V kid secret want now)
      (fun x w' => ∀ p exp, x = .ok (p, exp) → lapsed exp now = false ∧
        Between start w w' fun s => ∀ t, lapsed exp t = false → Accepts V raw want t p s) w := by
  rw [verifyAgainstStore, call_bind]
  refine op_rule rfl fun t env a u ht hs ha _ => ?_
  have hkey : ∀ key, a = .ok key → store.getKey kid t.doc = .ok key ∧ u = t := by
    intro key he
    cases ha
    refine ⟨?_, rfl⟩
    split at he
    · unfold lookupKey at he
      split at he <;> cases he
      assumption
    · cases he
  cases a with
  | error err =>
    cases err with
    | notFound | unavailable => exact fun _ _ _ _ _ h => by cases h
  | ok key =>
    obtain ⟨hget, rfl⟩ := hkey key rfl
    dsimp only
    split
    · exact fun _ _ _ _ _ h => by cases h
    rename_i hmac
    split
    · exact fun _ _ _ _ _ h => by cases h
    rename_i hcls
    split
    · exact fun _ _ _ _ _ h => by cases h
    rename_i hrev
    split
    · exact fun _ _ _ _ _ h => by cases h
    rename_i hexp
    rintro w' hw' _ p exp ⟨⟩
    refine ⟨by simpa [lapsed, Key.expired] using hexp, u.events, ht.events, hw'.events,
      fun t hl => ?_⟩
    rw [← hs.doc]
    exact ⟨kid, secret, key, hparse, hget, not_not.mp hmac, not_not.mp hcls,
      by simpa using hrev, hl, rfl, rfl⟩

/-- What a call accepts behind the caches was accepted by the document after the
read of the epoch, so the entry that it leaves is backed. -/
theorem verifyUncached_spec {ip : String} (hraw : presented raw)
    (hparse : V.parse raw = some (want, kid, secret)) {epoch? : Option Nat}
    (hep : ∀ epoch, epoch? = some epoch → Between start w₀ w fun s => s.epoch = epoch) (now : Int) :
    Keeps V presented start i (verifyUncached V (V.sum256 raw) ip kid secret want epoch? now)
      (fun x w' => ∀ v, x = .ok v → v.clock = now ∧
        Between start w w' (Accepts V raw want now v.principal)) w := by
  unfold verifyUncached
  rw [call_bind]
  refine quiet_rule rfl fun allowed u hu hs => ?_
  cases allowed with
  | false => exact fun _ _ _ _ h => by cases h
  | true =>
    cases epoch? with
    | none => exact fun _ _ _ _ h => by cases h
    | some epoch =>
      refine (verifyAgainstStore_spec hparse now u).seq hs fun x u' _ h => ?_
      cases x with
      | error err => exact quiet_rule rfl fun _ _ _ _ _ _ _ _ h => by cases h
      | ok r =>
        obtain ⟨p, exp⟩ := r
        obtain ⟨hl, ys, hy, hy', hacc⟩ := h p exp rfl
        obtain ⟨xs, _, hx, hxe⟩ := hep epoch rfl
        have hxy : xs <+: ys := (hx.trans hu.events).trans hy
        refine put_rule ⟨raw, want, xs, ys, hraw, rfl, hxy, hy', hxe, fun t ht => hacc t ht⟩
          fun v hv => ?_
        refine quiet_rule rfl fun _ v' hv' _ => ?_
        rintro w' hw' _ _ ⟨⟩
        exact ⟨rfl, ys, hu.events.trans hy, hy'.trans ((hv.trans hv').trans hw').events,
          hacc now hl⟩

/-- No two tokens that were presented have one hash. -/
def CollisionFree (V : Verifier D) (presented : String → Prop) : Prop :=
  ∀ raw raw', presented raw → presented raw' → V.sum256 raw = V.sum256 raw' → raw = raw'

variable (hsum : CollisionFree V presented)

include hsum

theorem verifyAt_spec (hraw : presented raw) (ip : String)
    (want : KeyClass) {now : Int} {u : World D} (hw : Sound V presented start w)
    (hnow : w.time ≤ now) (hu : Sound V presented start u) (hwu : Later w u) :
    Keeps V presented start i (verifyAt V ip raw want now)
      (fun x w' => ∀ v, x = .ok v → v.clock = now ∧
        Between start w w' (Accepts V raw want now v.principal)) u := by
  unfold verifyAt
  cases hparse : V.parse raw with
  | none => exact fun _ _ _ _ h => by cases h
  | some r =>
    obtain ⟨cls, kid, secret⟩ := r
    dsimp only
    split
    · exact fun _ _ _ _ h => by cases h
    rename_i hcls
    rw [not_not] at hcls
    subst hcls
    refine (keep_rule (F := Later w) (fun _ _ h h' => h'.trans h) hwu
      (syncEpoch_spec u)).seq hu fun x u₁ hu₁ hx => ?_
    obtain ⟨hep, hw₁⟩ := hx
    have hstore : ∀ u₂, Later u₁ u₂ → Keeps V presented start i
        (verifyUncached V (V.sum256 raw) ip kid secret cls x now)
        (fun x w' => ∀ v, x = .ok v → v.clock = now ∧
          Between start w w' (Accepts V raw cls now v.principal)) u₂ := by
      intro u₂ hu₂
      have hep₂ : ∀ epoch, x = some epoch → Between start u u₂ fun s => s.epoch = epoch :=
        fun epoch he => (hep epoch he).widen (Later.refl u) hu₂
      refine (verifyUncached_spec hraw hparse hep₂ now).mono fun x w' _ h v hv => ?_
      exact ⟨(h v hv).1, (h v hv).2.widen (hw₁.trans hu₂) (Later.refl w')⟩
    cases x with
    | none => exact hstore u₁ (Later.refl u₁)
    | some epoch =>
      refine (keep_rule (fun _ _ h h' => h'.trans h)
        (Later.refl u₁) (fromCache_spec (V.sum256 raw) epoch now u₁)).seq hu₁ fun y u₂ _ hy => ?_
      obtain ⟨hhit, hu₂⟩ := hy
      cases y with
      | none => exact hstore u₂ hu₂
      | some decision =>
        rintro w' hw' _ v rfl
        obtain ⟨hv, e, hb, he, hl, hp⟩ := hhit v rfl
        have hread : Between start w u₂ fun s => s.epoch = e.epoch :=
          he ▸ (hep epoch rfl).widen hwu hu₂
        obtain ⟨raw', cls', hraw', hraweq, hacc⟩ := hb.current hw.past hread hnow hl
        have hsame := hsum raw' raw hraw' hraw hraweq
        subst hsame
        refine ⟨hv, ?_⟩
        rw [hp]
        obtain ⟨es, h₁, h₂, hes⟩ := hacc.widen (Later.refl w) hw'
        -- the token names one class, which is the one the call has asked for
        obtain ⟨_, _, _, hparse', _⟩ := id hes
        rw [hparse] at hparse'
        cases hparse'
        exact ⟨es, h₁, h₂, hes⟩

/-- A call that began in `w` accepts what the document accepts at some instant
since then, at the reading of the clock that the call used. -/
theorem verify_spec (hraw : presented raw) (ip : String)
    (want : KeyClass) (hw : Sound V presented start w) :
    Keeps V presented start i (verify V ip raw want)
      (fun x w' => ∀ v, x = .ok v → (w.time ≤ v.clock ∧ v.clock ≤ w'.time) ∧
        Between start w w' (Accepts V raw want v.clock v.principal)) w := by
  rw [verify, call_bind]
  refine op_rule rfl fun t e now u ht hs ha hu => ?_
  have hclock : t.time ≤ now ∧ u.time = now := by
    simp only [act] at ha
    split at ha <;> cases ha
    exact ⟨by assumption, rfl⟩
  have hnow : w.time ≤ now := ht.time.trans hclock.1
  have hspec := verifyAt_spec (i := i) hsum hraw ip want hw hnow hu (ht.trans (act_later ha))
  have hkeep := keep_rule (F := fun w' => now ≤ w'.time) (fun _ _ h h' => le_trans h' h.time)
    hclock.2.ge hspec
  refine hkeep.mono fun x w' _ hx v hv => ?_
  obtain ⟨rfl, hb⟩ := hx.1 v hv
  exact ⟨⟨hnow, hx.2⟩, hb⟩

/-- What a call that began in `w` promises, if it is one of the verifier. -/
theorem program_spec {q : Request}
    (hq : ∀ ip raw want, q = .verify ip raw want → presented raw) (hw : Sound V presented start w) :
    Keeps V presented start i (q.program V)
      (fun x w' => ∀ ip raw want v, q = .verify ip raw want → x = .verified (.ok v) →
        (w.time ≤ v.clock ∧ v.clock ≤ w'.time) ∧
          Between start w w' (Accepts V raw want v.clock v.principal)) w := by
  cases q with
  | verify ip raw want =>
    have hspec := verify_spec (i := i) hsum (hq ip raw want rfl) ip want hw
    refine .map (hspec.mono fun x w' _ h => ?_)
    rintro _ _ _ v ⟨⟩ hx
    exact h v (Outcome.verified.inj hx)
  | mutate e =>
    refine quiet_rule rfl fun _ _ _ _ _ _ _ => ?_
    intro _ _ _ _ hq
    cases hq

end Specs

/-! ## Runs -/

section Runs

variable [DecidableEq D] [DecidableEq ι] {ls : List (ι × Env)} {α : Type}
  {c c' : Conf (@Ans D) ι (World D) α}

theorem later_of_run (hr : run machine c ls = some c') : Later c.shared c'.shared := by
  induction ls generalizing c with
  | nil => cases hr; exact .refl _
  | cons l ls ih =>
    obtain ⟨d, hd, hr'⟩ := run_cons.mp hr
    obtain ⟨_, _, _, _, ha, _⟩ := step_cases hd
    exact (act_later ha).trans (ih hr')

/-- Each document from the first to the last one of a run is the document after
some part of it. -/
theorem instant_of_run (hr : run machine c ls = some c') {es : List Event}
    (h : c.shared.events <+: es) (h' : es <+: c'.shared.events) :
    ∃ ls₁ ls₂ d, ls = ls₁ ++ ls₂ ∧ run machine c ls₁ = some d ∧ d.shared.events = es := by
  induction ls generalizing c with
  | nil =>
    cases hr
    exact ⟨[], [], _, rfl, rfl, h.sublist.antisymm h'.sublist⟩
  | cons l ls ih =>
    obtain ⟨d, hd, hr'⟩ := run_cons.mp hr
    by_cases he : c.shared.events = es
    · exact ⟨[], l :: ls, c, rfl, rfl, he⟩
    have hnext : d.shared.events <+: es := by
      obtain ⟨_, _, _, _, ha, _⟩ := step_cases hd
      have hlast := (later_of_run hr').events
      rcases act_events ha with hsame | ⟨ev, hone⟩
      · rw [hsame]
        exact h
      rw [hone] at hlast ⊢
      rcases prefix_or_prefix_of_prefix hlast h' with hp | hp
      · exact hp
      rcases prefix_concat_iff.mp hp with rfl | hp
      · exact prefix_rfl
      · exact absurd (h.sublist.antisymm hp.sublist) he
    obtain ⟨ls₁, ls₂, d', rfl, hrun, hes⟩ := ih hr' hnext
    exact ⟨l :: ls₁, ls₂, d', rfl, run_cons.mpr ⟨d, hd, hrun⟩, hes⟩

def Presented (calls : ι → Request) (raw : String) : Prop :=
  ∃ i ip want, calls i = .verify ip raw want

omit [DecidableEq D] [DecidableEq ι] in
theorem sound_initial (V : Verifier D) (presented : String → Prop) (start : State) (time : Int) :
    Sound V presented start (initial V start time) :=
  ⟨rfl, fun _ h => (by cases h), fun _ h => (by cases h)⟩

end Runs

/-! ## A visit from the cache -/

/-- A token is the KID of an agent key, and every secret is the same. -/
def plainVerifier : Verifier String :=
  { cacheTTL := 60, negativeTTL := 5, cacheSize := 2
    parse := fun raw => some (.agent, raw, [1])
    sum256 := id
    hmac := id }

/-- One token comes twice, and in between someone prunes whose clock shows `now`. -/
def twoVisits (kid : String) (now : Int) : Fin 3 → Request
  | 0 => .verify "10.0.0.1" kid .agent
  | 1 => .mutate { now := now, op := .prune ascendingOrder 10 }
  | 2 => .verify "10.0.0.2" kid .agent

def at100 (is : List Nat) : List (Fin 3 × Env) :=
  (numbered is).map fun i => (i, { now := 100, up := true, allow := true })

/-- The first visit and the prune, and the second visit, which reads no key. -/
def firstVisit : List (Fin 3 × Env) := at100 (List.replicate 11 0 ++ [1])

def secondVisit : List (Fin 3 × Env) := at100 [2, 2, 2, 2]

end prom_fleet.authn
