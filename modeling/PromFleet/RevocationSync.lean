-- The revocation cache of a hub process over the Secret-backed store. A refresh reads the
-- epoch and the list through the cache of the replica, which other calls refill in between.
-- The set belongs to its epoch if the fills come in order; a late fill pairs a new epoch with
-- an old list, and then the epoch does not move and the old list stays.
import PromFleet.CacheLaws
import PromFleet.RevocationCache
import PromFleet.SerialLaws

namespace prom_fleet.tunnel

open interleave store map_range List Function Prog Option kube secretstore hub

variable {ρ ι Blob : Type}

/-! ## The system -/

variable (S : Setup ρ Op Reply Blob)

def epoch (r : ρ) : Call ρ Op Blob (Except ReadErr Nat) := do
  match ← read S r with
  | .error e => return .error e
  | .ok st => return .ok st.epoch

def listRevokedCerts (order : Range String RevokedCert) (r : ρ) :
    Call ρ Op Blob (Except ReadErr (List RevokedCert)) := do
  match ← read S r with
  | .error e => return .error e
  | .ok st => return .ok (store.listRevokedCerts order st)

/-- The revocation cache of a process and the store of that process. -/
def keeper (order : Range String RevokedCert) (r : ρ) :
    Keeper ρ (@secretstore.Ans ρ Op Blob) ReadErr :=
  { self := r, ttl := 30000000000, readEpoch := epoch S r
    readList := listRevokedCerts S order r }

/-- A call of a store, or of the revocation cache of a process. A refresh lists at
most once, in an order of its own. -/
inductive Request (ρ : Type) where
  | store (q : secretstore.Request ρ Op)
  | refresh (r : ρ) (order : Range String RevokedCert)
  | isRevoked (r : ρ) (serial : String) (order : Range String RevokedCert)

inductive Outcome (Blob : Type) where
  | stored (x : secretstore.Outcome Reply Blob)
  | refreshed (x : Except ReadErr Refreshed)
  | checked (revoked : Bool)

abbrev Op (ρ Blob : Type) := secretstore.Op ρ store.Op Blob ⊕ CacheOp ρ

abbrev Ans {ρ Blob : Type} : Op ρ Blob → Type :=
  Either (@secretstore.Ans ρ store.Op Blob) (@CacheAns ρ)

abbrev Call (ρ Blob α : Type) := Prog (@Ans ρ Blob) α

def Request.program (S : Setup ρ store.Op Reply Blob) : Request ρ → Call ρ Blob (Outcome Blob)
  | .store q => return .stored (← (q.program S).inl)
  | .refresh r order => return .refreshed (← hub.refresh (keeper S order r))
  | .isRevoked r serial order => return .checked (← hub.isRevoked (keeper S order r) serial)

abbrev World (ρ ι Blob : Type) := secretstore.World ρ ι store.Op Blob × (ρ → RevocationCache)

def machine [DecidableEq ρ] (S : Setup ρ store.Op Reply Blob) :
    Machine (@Ans ρ Blob) ι Env (World ρ ι Blob) :=
  (secretstore.machine S).sum (cacheMachine Env.now)

def system (S : Setup ρ store.Op Reply Blob) (start : Option (Secret Blob))
    (calls : ι → Request ρ) : Conf (@Ans ρ Blob) ι (World ρ ι Blob) (Outcome Blob) :=
  { shared := (secretstore.initial start, fun _ => RevocationCache.new)
    thread := fun i => (calls i).program S }

/-- Only the mutation of a call is written in its name. -/
def planFor (start : Option (Secret Blob)) (calls : ι → Request ρ) : Plan ι store.Op Blob :=
  { start := start, carries := fun i m => ∃ r, calls i = .store (.mutate r m) }

/-! ## Entries along the chain -/

/-- The document files each revocation under its own serial, as `RevokeCert` does. -/
def CertsFiled (s : State) : Prop :=
  ∀ serial rc, s.revokedCerts.lookup serial = some rc → rc.serial = serial

def StartCertsFiled (S : Setup ρ store.Op Reply Blob) (start : Option (Secret Blob)) : Prop :=
  ∀ sec st, start = some sec → decode S.json (S.document sec) = .ok st → CertsFiled st

theorem certsFiled_apply {op : store.Op} {now : Int} {s s' : State} (hf : CertsFiled s)
    (h : Effect now s op s') : CertsFiled s' := by
  cases h with
  | @revokeCert rc' =>
    intro serial rc hrc
    obtain ⟨rfl, rfl⟩ | ⟨_, hold⟩ := map_range.lookup_insert_cases hrc
    · rfl
    · exact hf serial rc hold
  | prune hb =>
    intro serial rc hrc
    obtain ⟨_, _, _, hcerts⟩ := prune_cases hb
    rw [hcerts, filter_eq_some_iff] at hrc
    exact hf serial rc hrc.1
  | _ => exact hf

/-- The new entry counts at every time at which the old one does. -/
def outlasts (old rc : RevokedCert) : Bool :=
  isZero rc.notAfter || (!isZero old.notAfter && decide (old.notAfter ≤ rc.notAfter))

theorem certLive_of_outlasts {old rc : RevokedCert} {t : Int} (h : outlasts old rc = true)
    (ht : certLive t old = true) : certLive t rc = true := by
  rw [certLive_iff] at ht ⊢
  simp only [outlasts, isZero, Bool.or_eq_true, Bool.and_eq_true, Bool.not_eq_true',
    decide_eq_true_eq, decide_eq_false_iff_not] at h
  omega

section Chain

variable {S : Setup ρ store.Op Reply Blob} {start : Option (Secret Blob)}
  {s : List (Version Blob (Note ι store.Op))}

variable (S s) in
/-- No revocation in the chain ends before the entry that it replaces. -/
def Lasting : Prop :=
  ∀ v old rest i rc t st before, v :: old :: rest <:+ s → v.note = some (i, .revokeCert rc, t) →
    decode S.json (S.document old.secret) = .ok st →
    st.revokedCerts.lookup rc.serial = some before → outlasts before rc = true

/-- No prune pass in the chain ran at a reading after `t`. -/
def prunedBy (t : Int) (s : List (Version Blob (Note ι store.Op))) : Bool :=
  s.all fun v =>
    match v.note with
    | some (_, .prune _ _, t') => decide (t' ≤ t)
    | _ => true

variable {t : Int} {v : Version Blob (Note ι store.Op)}

theorem prunedBy_note {t' : Int} {i : ι} {order : PruneOrder} {retain : Int}
    (h : prunedBy t s = true) (hv : v ∈ s) (hn : v.note = some (i, .prune order retain, t')) :
    t' ≤ t := by
  have hall := all_eq_true.mp h v hv
  rw [hn] at hall
  exact of_decide_eq_true hall

variable (hj : S.json.Lawful) (hsem : ∀ m now s, S.sem m now s = m.apply now s)

include hj hsem in
theorem certsFiled_of_chain (hstart : StartCertsFiled S start) (hc : Chain S start s) :
    ∀ v ∈ s, ∀ st, decode S.json (S.document v.secret) = .ok st → CertsFiled st := by
  refine hc.forall_docs hj hstart (fun serial rc h => ?_) (fun m t st a hf ha => ?_)
    fun st st' hf hcerts _ serial rc hrc => ?_
  · cases h
  · rw [hsem] at ha
    exact certsFiled_apply hf (apply_effect ha)
  · rw [hcerts] at hrc
    exact hf serial rc hrc

variable {now : Int} {op : store.Op} {serial : String} {st : State}

/-- An entry that counts at `t` is kept by a revocation that does not end before the
entry it replaces, and by a prune pass that does not run after `t`. -/
theorem recorded_effect {st' : State} (h : Effect now st op st') (hrec : Recorded serial t st)
    (hlast : ∀ rc before, op = .revokeCert rc → st.revokedCerts.lookup rc.serial = some before →
      outlasts before rc = true) (hpruned : ∀ order retain, op = .prune order retain → now ≤ t) :
    Recorded serial t st' := by
  cases h with
  | @revokeCert rc =>
    refine recorded_setCert now (fun hserial => ?_) fun _ => hrec
    obtain ⟨before, hbefore, _, hlive⟩ := hrec
    rw [hserial] at hbefore
    exact certLive_of_outlasts (hlast rc before rfl hbefore) hlive
  | prune hb =>
    obtain ⟨hretain, _⟩ := prune_cases hb
    have hle := hpruned _ _ rfl
    exact (recorded_prune hb hrec).resolve_right (by omega)
  | _ => exact hrec

variable {a b : Version Blob (Note ι store.Op)} {sa sb : List (Version Blob (Note ι store.Op))}

include hj hsem in
/-- An entry that counts at `t` still counts at `t` in each later version. -/
theorem recorded_between (hc : Chain S start s) (hlast : Lasting S s) (hab : a :: sa <:+ b :: sb)
    (hb : b :: sb <:+ s) (hpruned : prunedBy t (b :: sb) = true)
    (ha : ∀ st, decode S.json (S.document a.secret) = .ok st → Recorded serial t st) :
    ∀ st, decode S.json (S.document b.secret) = .ok st → Recorded serial t st := by
  refine hc.between hj hab hb ha ?_
  intro v old rest i m t' st x st' hs _ hnote hst hx _ hcerts _ hrec
  suffices h : Recorded serial t x.state from h.congr (by rw [hcerts])
  rw [hsem] at hx
  refine recorded_effect (apply_effect hx) hrec (fun rc before hm hbefore => ?_)
    fun order retain hm => ?_
  · subst hm
    exact hlast v old rest i rc t' st before (hs.trans hb) hnote hst hbefore
  · subst hm
    exact prunedBy_note hpruned (hs.subset mem_cons_self) hnote

/-- A mutation moves the epoch on, or every entry of its result was there before. -/
theorem entries_of_epoch {s s' : State} (h : Effect now s op s') :
    s'.epoch = s.epoch + 1 ∨ s'.epoch = s.epoch ∧
      ∀ serial rc, s'.revokedCerts.lookup serial = some rc →
        s.revokedCerts.lookup serial = some rc := by
  rcases h.epoch fun _ _ _ => le_refl now with hup | ⟨heq, _⟩
  · exact .inl hup
  refine .inr ⟨heq, fun serial rc hrc => ?_⟩
  cases h with
  | revokeCert => exact absurd heq (Nat.succ_ne_self _)
  | prune hb =>
    obtain ⟨_, _, _, hcerts⟩ := prune_cases hb
    rw [hcerts, filter_eq_some_iff] at hrc
    exact hrc.1
  | _ => exact hrc

variable {rc : RevokedCert}

include hj hsem in
/-- An entry of a version is also in each earlier version of the same epoch. -/
theorem entries_between (hc : Chain S start s) (hab : a :: sa <:+ b :: sb) (hb : b :: sb <:+ s)
    {sta stb : State} (ha : decode S.json (S.document a.secret) = .ok sta)
    (hstb : decode S.json (S.document b.secret) = .ok stb) (heq : sta.epoch = stb.epoch)
    (hrc : stb.revokedCerts.lookup serial = some rc) :
    sta.revokedCerts.lookup serial = some rc := by
  -- the epoch does not go back (it has not wrapped), so it stood still all the way
  have hall := hc.between hj hab hb (P := fun st => sta.epoch ≤ st.epoch ∧
    (st.epoch = sta.epoch → ∀ serial rc, st.revokedCerts.lookup serial = some rc →
      sta.revokedCerts.lookup serial = some rc)) ?_ ?_ stb hstb
  · exact hall.2 heq.symm serial rc hrc
  · intro st hst
    rw [ha] at hst
    cases hst
    exact ⟨le_refl _, fun _ _ _ h => h⟩
  · intro v old rest i m t st x st' _ _ _ _ hx hepoch hcerts _ ih
    rw [hsem] at hx
    rcases entries_of_epoch (apply_effect hx) with hup | ⟨hsame, hsub⟩
    · exact ⟨by omega, fun h => by omega⟩
    refine ⟨by omega, fun h serial rc hrc => ih.2 (by omega) serial rc (hsub serial rc ?_)⟩
    rw [← hcerts]
    exact hrc

variable (S s) in
/-- The epoch was read from a version, and the list from that version or from a
later one. -/
def Paired (n : Nat) (entries : List RevokedCert) : Prop :=
  ∃ a sa b sb sta stb order, a :: sa <:+ b :: sb ∧ b :: sb <:+ s ∧
    decode S.json (S.document a.secret) = .ok sta ∧
    decode S.json (S.document b.secret) = .ok stb ∧ sta.epoch = n ∧
    entries = store.listRevokedCerts order stb

variable {entries : List RevokedCert} {n : Nat} {s' : List (Version Blob (Note ι store.Op))}

theorem Paired.mono (h : Paired S s n entries) (hs : s <:+ s') : Paired S s' n entries := by
  obtain ⟨a, sa, b, sb, sta, stb, order, hab, hb, hrest⟩ := h
  exact ⟨a, sa, b, sb, sta, stb, order, hab, hb.trans hs, hrest⟩

include hj hsem in
/-- A list that is not older than the epoch it is paired with has every serial that
is revoked in a version of that epoch. -/
theorem Paired.complete (hstart : StartCertsFiled S start) (hc : Chain S start s)
    (hlast : Lasting S s) (hp : Paired S s' n entries) (hs : s' <:+ s)
    (hpruned : prunedBy t s' = true) (hv : v ∈ s)
    (hst : decode S.json (S.document v.secret) = .ok st) (hn : st.epoch = n)
    (hrc : st.revokedCerts.lookup serial = some rc) (hlive : certLive t rc = true) :
    serial ∈ liveSerials t entries := by
  obtain ⟨a, sa, b, sb, sta, stb, order, hab, hb, hsta, hstb, hepoch, rfl⟩ := hp
  obtain ⟨newer, older, rfl⟩ := append_of_mem hv
  have hfiled := certsFiled_of_chain hj hsem hstart hc v hv st hst serial rc hrc
  have hpruned' : prunedBy t (b :: sb) = true :=
    all_eq_true.mpr fun x hx => all_eq_true.mp hpruned x (hb.subset hx)
  have hb' := hb.trans hs
  have hvs : v :: older <:+ newer ++ v :: older := suffix_append _ _
  suffices hrec : Recorded serial t stb from hrec.mem_liveSerials order (le_refl t)
  rcases suffix_or_suffix_of_suffix hvs (hab.trans hb') with hva | hav
  · refine recorded_between hj hsem hc hlast (hva.trans hab) hb' hpruned' (fun st' hst' => ?_) stb
      hstb
    rw [hst] at hst'
    cases hst'
    exact ⟨rc, hrc, hfiled, hlive⟩
  · -- the version is later than the read of the epoch, which has not moved in between
    have hrca := entries_between hj hsem hc hav hvs hsta hst (by omega) hrc
    refine recorded_between hj hsem hc hlast hab hb' hpruned' (fun st' hst' => ?_) stb hstb
    rw [hsta] at hst'
    cases hst'
    exact ⟨rc, hrca, hfiled, hlive⟩

end Chain

/-! ## The condition on the steps -/

/-- The entry for a serial in the Secret as it stands. -/
def standing (S : Setup ρ store.Op Reply Blob) (s : List (Version Blob (Note ι store.Op)))
    (serial : String) : Option RevokedCert :=
  match (current s).map fun sec => decode S.json (S.document sec) with
  | some (.ok st) => st.revokedCerts.lookup serial
  | _ => none

/-- A revocation that is written does not end before the entry that stands. -/
def keepsEnds (S : Setup ρ store.Op Reply Blob) (o : secretstore.Op ρ store.Op Blob)
    (s : List (Version Blob (Note ι store.Op))) : Bool :=
  match o with
  | .updateSecret _ (.revokeCert rc) _ =>
    (standing S s rc.serial).all fun before => outlasts before rc
  | _ => true

/-- The call is one of the revocation cache of `r`. -/
def Request.asks [DecidableEq ρ] (r : ρ) : Request ρ → Bool
  | .store _ => false
  | .refresh p _ => decide (p = r)
  | .isRevoked p _ _ => decide (p = r)

section Condition

variable [DecidableEq ρ] (S : Setup ρ store.Op Reply Blob)

/-- The condition on a step of the store. -/
def InOrder (r : ρ) (i : ι) (o : secretstore.Op ρ store.Op Blob) (e : Env)
    (w : secretstore.World ρ ι store.Op Blob) : Prop :=
  FillsInOrder r i o e w ∧ keepsEnds S o w.server = true

/-- The condition on the steps of a run. The cache of `r` is filled in order, no revocation ends
before the entry that it replaces, and no prune pass has run later than a refresh at `r`. -/
def Orderly (calls : ι → Request ρ) (r : ρ) (i : ι)
    (o : Op ρ Blob) (e : Env) (x : World ρ ι Blob) : Prop :=
  match o with
  | .inl o => InOrder S r i o e x.1
  | .inr .time => (calls i).asks r = true → prunedBy e.now x.1.server = true
  | .inr _ => True

instance (calls : ι → Request ρ) (r : ρ) (i : ι)
    (o : Op ρ Blob) (e : Env) (x : World ρ ι Blob) : Decidable (Orderly S calls r i o e x) :=
  match o with
  | .inl o => inferInstanceAs (Decidable (FillsInOrder r i o e x.1 ∧ _))
  | .inr .time => inferInstanceAs (Decidable (_ → _))
  | .inr (.lock _) | .inr (.unlock _) | .inr (.peek _) | .inr (.touch _ _)
  | .inr (.install _ _ _ _) => isTrue trivial

variable [DecidableEq ι] {S}

omit [DecidableEq ρ] [DecidableEq ι] in
theorem lasting_push {s : List (Version Blob (Note ι store.Op))}
    {v : Version Blob (Note ι store.Op)} (h : Lasting S s)
    (hv : ∀ old rest i rc t st before, s = old :: rest → v.note = some (i, .revokeCert rc, t) →
      decode S.json (S.document old.secret) = .ok st →
      st.revokedCerts.lookup rc.serial = some before → outlasts before rc = true) :
    Lasting S (v :: s) := by
  intro v' old rest i rc t st before hs
  rcases suffix_cons_iff.mp hs with heq | hs
  · obtain ⟨rfl, rfl⟩ := List.cons.inj heq
    exact hv old rest i rc t st before rfl
  · exact h v' old rest i rc t st before hs

variable (S) in
/-- The conditions on the store keep its cache and its chain in order. -/
theorem keeps_inOrder (plan : Plan ι store.Op Blob) (r : ρ) :
    secretstore.Keeps S plan (fun w => HoldsNewest r w ∧ Lasting S w.server) (InOrder S r) := by
  intro i o e w a u hg hw hl hc hact
  refine ⟨secretstore.keeps_holdsNewest S plan r i o e w a u hg hw.1 hl hc.1 hact, ?_⟩
  rcases secretstore.act_server hact with hs | ⟨v, hs, ⟨hnote, _⟩ | ⟨sec, m, t, rfl, hnote⟩⟩
  · rw [hs]
    exact hw.2
  · rw [hs]
    refine lasting_push hw.2 fun old rest j rc t st before _ hn => ?_
    rw [hnote] at hn
    cases hn
  · rw [hs]
    refine lasting_push hw.2 fun old rest j rc t' st before hserver hn hst hbefore => ?_
    rw [hnote] at hn
    cases hn
    have hends := hc.2
    simp only [keepsEnds, standing, hserver, current, List.head?_cons, map_some, hst,
      hbefore, all_some] at hends
    exact hends

end Condition

/-! ## The pact of the calls -/

/-- Where the set of a cache comes from. A set that was installed at `t` is a list with the epoch
of the cache, in which no prune pass ran after `t`. Only an installed set was fetched. -/
structure Explained (S : Setup ρ store.Op Reply Blob) (s : List (Version Blob (Note ι store.Op)))
    (c : RevocationCache) : Prop where
  installed : c.fetched ≠ 0 → c.installedAt.isSome = true
  pairing : ∀ t, c.installedAt = some t → ∃ s' entries, s' <:+ s ∧ Paired S s' c.epoch entries ∧
    prunedBy t s' = true ∧ c.serials = liveSerials t entries

variable {S : Setup ρ store.Op Reply Blob}

theorem Explained.mono {s s' : List (Version Blob (Note ι store.Op))} {c : RevocationCache}
    (h : Explained S s c) (hs : s <:+ s') : Explained S s' c := by
  refine ⟨h.installed, fun t ht => ?_⟩
  obtain ⟨s₀, entries, hs₀, hrest⟩ := h.pairing t ht
  exact ⟨s₀, entries, hs₀.trans hs, hrest⟩

/-- A version with this epoch was served at `p`. -/
def Seen (S : Setup ρ store.Op Reply Blob) (p : ρ) (n : Nat)
    (w : secretstore.World ρ ι store.Op Blob) : Prop :=
  ∃ a sa st, a :: sa <:+ w.server ∧ a.secret.resourceVersion ≤ (w.mem p).newest ∧
    decode S.json (S.document a.secret) = .ok st ∧ st.epoch = n

theorem Seen.mono {p : ρ} {n : Nat} {w w' : secretstore.World ρ ι store.Op Blob} (h : Seen S p n w)
    (hw : Grows w w') : Seen S p n w' := by
  obtain ⟨a, sa, st, ha, hle, hrest⟩ := h
  exact ⟨a, sa, st, ha.trans hw.1, hle.trans (hw.2 p), hrest⟩

/-- The operations that leave the sets alone. -/
def quiet : CacheOp ρ → Bool
  | .touch _ _ => false
  | .install _ _ _ _ => false
  | _ => true

section Cache

variable [DecidableEq ρ] {o : CacheOp ρ} {e : Env} {a : CacheAns o} {c c' : ρ → RevocationCache}

theorem cacheAct_quiet (ho : quiet o = true) (h : cacheAct Env.now o e c = some (a, c')) (r : ρ) :
    ∃ b, c' r = { c r with locked := b } := by
  have hupdate : ∀ (p : ρ) (b : Bool), ∃ b',
      update c p { c p with locked := b } r = { c r with locked := b' } := by
    intro p b
    by_cases hr : r = p
    · subst hr
      exact ⟨b, update_self ..⟩
    · exact ⟨(c r).locked, update_of_ne hr ..⟩
  cases o with
  | time | peek => cases h; exact ⟨(c r).locked, rfl⟩
  | lock p =>
    simp only [cacheAct] at h
    split at h
    · cases h
    · cases h
      exact hupdate p true
  | unlock p => cases h; exact hupdate p false
  | touch | install => cases ho

theorem cacheAct_installed (h : cacheAct Env.now o e c = some (a, c')) (r : ρ)
    (hr : (c r).installedAt.isSome = true) : (c' r).installedAt.isSome = true := by
  by_cases ho : quiet o = true
  · obtain ⟨b, hb⟩ := cacheAct_quiet ho h r
    rw [hb]
    exact hr
  · cases o with
    | touch p t =>
      cases h
      by_cases hp : r = p
      · subst hp
        rw [update_self]
        exact hr
      · rw [update_of_ne hp]
        exact hr
    | install p serials n t =>
      cases h
      by_cases hp : r = p
      · subst hp
        rw [update_self]
        rfl
      · rw [update_of_ne hp]
        exact hr
    | _ => exact absurd rfl ho

end Cache

section Specs

variable [DecidableEq ρ] [DecidableEq ι] {S : Setup ρ store.Op Reply Blob}
  {plan : Plan ι store.Op Blob} {calls : ι → Request ρ} {r : ρ} {i : ι} {x : World ρ ι Blob}
  {α : Type}

variable (S plan r) in
def storePact : Pact (secretstore.Op ρ store.Op Blob) ι Env (secretstore.World ρ ι store.Op Blob) :=
  secretstore.pact S plan (fun w => HoldsNewest r w ∧ Lasting S w.server) (InOrder S r)

variable (S plan calls r) in
/-- The calls of the store keep their pact, and the set of `r` stays explained. -/
def pact : Pact (Op ρ Blob) ι Env (World ρ ι Blob) where
  inv x := (storePact S plan r).inv x.1 ∧ Explained S x.1.server (x.2 r)
  cond := Orderly S calls r
  rely i x y := (storePact S plan r).rely i x.1 y.1 ∧
    ((x.2 r).installedAt.isSome = true → (y.2 r).installedAt.isSome = true)
  guar i x y := (storePact S plan r).guar i x.1 y.1 ∧
    ((x.2 r).installedAt.isSome = true → (y.2 r).installedAt.isSome = true)
  rely_refl i x := ⟨(storePact S plan r).rely_refl i x.1, id⟩
  rely_trans i x y z h h' :=
    ⟨(storePact S plan r).rely_trans i x.1 y.1 z.1 h.1 h'.1, fun hx => h'.2 (h.2 hx)⟩
  rely_of_guar i j x y hij hx hy h :=
    ⟨(storePact S plan r).rely_of_guar i j x.1 y.1 hij hx.1 hy.1 h.1, h.2⟩

variable {Q : α → secretstore.World ρ ι store.Op Blob → Prop}

/-- A program of the store keeps its spec beside the revocation caches. -/
theorem store_rule {p : secretstore.Call ρ store.Op Blob α}
    (h : Holds (secretstore.machine S) (storePact S plan r) i p Q x.1) :
    Holds (machine S) (pact S plan calls r) i p.inl (fun a y => Q a y.1) x := by
  have hstep : ∀ (y : World ρ ι Blob) w, (pact S plan calls r).inv y →
      (storePact S plan r).inv w → (storePact S plan r).guar i y.1 w →
      (pact S plan calls r).inv (w, y.2) ∧ (pact S plan calls r).guar i y (w, y.2) :=
    fun y w hy hw hg => ⟨⟨hw, hy.2.mono hg.1.1⟩, hg, id⟩
  exact .inl (P := pact S plan calls r) (fun _ h => h.1) (fun _ _ h => h.1)
    (fun _ _ _ _ h => h) hstep h

variable {o : CacheOp ρ} {k : CacheAns o → Call ρ Blob α}

theorem cache_rule {Q : α → World ρ ι Blob → Prop}
    (hkeep : ∀ t e a c, (pact S plan calls r).rely i x t → (pact S plan calls r).inv t →
      cacheAct Env.now o e t.2 = some (a, c) → Explained S t.1.server (c r))
    (hk : ∀ t e a u, (pact S plan calls r).rely i x t → (pact S plan calls r).inv t →
      Orderly S calls r i (.inr o) e t → cacheAct Env.now o e t.2 = some (a, u.2) → u.1 = t.1 →
      (pact S plan calls r).inv u → Holds (machine S) (pact S plan calls r) i (k a) Q u) :
    Holds (machine S) (pact S plan calls r) i (.op (.inr o) k) Q x := by
  intro t ht hinv e hc a u hu
  obtain ⟨hact, hsame⟩ := sum_inr hu
  have hinv' : (pact S plan calls r).inv u := by
    refine ⟨by rw [hsame]; exact hinv.1, ?_⟩
    rw [hsame]
    exact hkeep t e a u.2 ht hinv hact
  refine ⟨hinv', ⟨?_, cacheAct_installed hact r⟩, hk t e a u ht hinv hc hact hsame hinv'⟩
  rw [hsame]
  exact ⟨Grows.refl _, fun _ _ => rfl⟩

theorem quiet_rule (ho : quiet o = true) {Q : α → World ρ ι Blob → Prop}
    (hk : ∀ t e a u, (pact S plan calls r).rely i x t → (pact S plan calls r).inv t →
      Orderly S calls r i (.inr o) e t → cacheAct Env.now o e t.2 = some (a, u.2) → u.1 = t.1 →
      (pact S plan calls r).inv u → Holds (machine S) (pact S plan calls r) i (k a) Q u) :
    Holds (machine S) (pact S plan calls r) i (.op (.inr o) k) Q x := by
  refine cache_rule (fun t e a c _ hinv hact => ?_) hk
  obtain ⟨b, hb⟩ := cacheAct_quiet ho hact r
  rw [hb]
  exact ⟨hinv.2.installed, hinv.2.pairing⟩

variable (hx : (pact S plan calls r).inv x)

include hx

theorem read_rule (p : ρ) {k : Except ReadErr State → secretstore.Call ρ store.Op Blob α}
    (hk : ∀ y w, (storePact S plan r).inv w →
      secretstore.Read S plan (fun w => HoldsNewest r w ∧ Lasting S w.server) (InOrder S r) i p x.1
        y w → Holds (secretstore.machine S) (storePact S plan r) i (k y) Q w) :
    Holds (machine S) (pact S plan calls r) i (secretstore.read S p >>= k).inl
      (fun a y => Q a y.1) x :=
  store_rule ((read_spec (keeps_inOrder S plan r) p x.1).seq hx.1 hk)

/-- The epoch that a refresh reads is the one of a version that was served. -/
theorem epoch_spec (p : ρ) : Holds (machine S) (pact S plan calls r) i (epoch S p).inl
      (fun y z => ∀ n, y = .ok n → Seen S p n z.1) x := by
  refine read_rule (Q := fun y w => ∀ n, y = Except.ok n → Seen S p n w) hx p fun y w _ hread => ?_
  cases y with
  | error er => exact fun _ _ _ _ h => by cases h
  | ok st =>
    rintro w' hw' _ _ ⟨⟩
    obtain ⟨sec, hsrc, hle, hst⟩ := hread.2.2 st rfl
    obtain ⟨a, sa, ha, rfl⟩ := hsrc.stored.suffix
    exact .mono ⟨a, sa, st, ha, hle, hst, rfl⟩ hw'.1

variable {n : Nat} {p : ρ}

/-- If the fills at `r` come in order, the list that a refresh reads is not older
than the epoch that it read before. -/
theorem listRevokedCerts_spec (order : Range String RevokedCert) (hseen : Seen S p n x.1) :
    Holds (machine S) (pact S plan calls r) i (listRevokedCerts S order p).inl
      (fun y z => ∀ entries, y = .ok entries → p = r → Paired S z.1.server n entries) x := by
  refine read_rule (Q := fun y w => ∀ entries, y = Except.ok entries → p = r →
    Paired S w.server n entries) hx p fun y w hw hread => ?_
  cases y with
  | error er => exact fun _ _ _ _ h => by cases h
  | ok st =>
    rintro w' hw' _ _ ⟨⟩ rfl
    obtain ⟨sec, hsrc, _, hst⟩ := hread.2.2 st rfl
    have hnew := hsrc.newest_le fun _ h => h.1
    obtain ⟨b, sb, hb, rfl⟩ := hsrc.stored.suffix
    obtain ⟨a, sa, sta, ha, hle, hsta, hn⟩ := hseen
    have hab : a :: sa <:+ b :: sb :=
      hw.1.ordered.suffix_of_le (ha.trans hread.1.1) hb (hle.trans hnew)
    exact ⟨a, sa, b, sb, sta, st, order, hab, hb.trans hw'.1.1, hsta, hst, hn, rfl⟩

/-- A refresh that lists installs a set that is explained. -/
theorem relist_spec (order : Range String RevokedCert)
    (hask : p = r → (calls i).asks r = true) (hseen : Seen S p n x.1) :
    Holds (machine S) (pact S plan calls r) i (relist (keeper S order p) n)
      (fun _ _ => True) x := by
  simp only [relist, keeper, time, install, inr_call, call_bind]
  refine (listRevokedCerts_spec hx order hseen).seq hx fun y z hz hpair => ?_
  cases y with
  | error er => exact fun _ _ _ => trivial
  | ok entries =>
    refine quiet_rule rfl fun t e now u ht _ hc hact hsame _ => ?_
    refine cache_rule (fun t' e' _ c ht' hinv hact' => ?_) fun _ _ _ _ _ _ _ _ _ _ =>
      fun _ _ _ => trivial
    simp only [cacheAct, Option.some.injEq, Prod.mk.injEq] at hact hact'
    obtain ⟨_, rfl⟩ := hact'
    by_cases hp : r = p
    · subst hp
      rw [update_self]
      refine ⟨fun _ => rfl, fun T hT => ?_⟩
      cases hT
      refine ⟨t.1.server, entries, ?_, (hpair entries rfl rfl).mono ht.1.1.1, ?_, rfl⟩
      · have hgrow := ht'.1.1.1
        rw [hsame] at hgrow
        exact hgrow
      · rw [← hact.1]
        exact hc (hask rfl)
    · rw [update_of_ne hp]
      exact hinv.2

omit hx

/-- A refresh that finds the epoch unchanged leaves the set as it was installed. -/
theorem touch_spec {c : RevocationCache} {u : World ρ ι Blob}
    (hu : r = p → c.fetched ≠ 0 → (u.2 r).installedAt.isSome = true)
    (hc : n = c.epoch ∧ isZero c.fetched = false) : Holds (machine S) (pact S plan calls r) i
      (.op (.inr .time) fun now => .op (.inr (.touch p now)) fun _ =>
        .done (.ok .unchanged : Except ReadErr Refreshed)) (fun _ _ => True) u := by
  have hfetched : c.fetched ≠ 0 := by simpa [isZero] using hc.2
  refine quiet_rule rfl fun t e now v ht _ _ hact _ _ => ?_
  refine cache_rule (fun t' e' _ d ht' hinv hact' => ?_) fun _ _ _ _ _ _ _ _ _ _ =>
    fun _ _ _ => trivial
  cases hact'
  by_cases hp : r = p
  · subst hp
    have hv : (v.2 r).installedAt.isSome = true :=
      cacheAct_installed hact r (ht.2 (hu rfl hfetched))
    rw [update_self]
    exact ⟨fun _ => ht'.2 hv, hinv.2.pairing⟩
  · rw [update_of_ne hp]
    exact hinv.2

variable (x : World ρ ι Blob)

theorem refreshLocked_spec (order : Range String RevokedCert)
    (hask : p = r → (calls i).asks r = true) :
    Holds (machine S) (pact S plan calls r) i (refreshLocked (keeper S order p))
      (fun _ _ => True) x := by
  simp only [refreshLocked, peek, time, touch, inr_call, call_bind]
  refine quiet_rule rfl fun _ _ _ _ _ _ _ _ _ _ => quiet_rule rfl fun _ _ _ u _ _ _ _ _ hu => ?_
  split
  · exact fun _ _ _ => trivial
  refine (epoch_spec hu p).seq hu fun y z hz hseen => ?_
  cases y with
  | error er => exact fun _ _ _ => trivial
  | ok n =>
    refine quiet_rule rfl fun t e c v ht hinv _ hact hsame hv => ?_
    simp only [cacheAct, Option.some.injEq, Prod.mk.injEq] at hact
    obtain ⟨rfl, hcaches⟩ := hact
    split
    · rename_i hc
      refine touch_spec (fun hp hfetched => ?_) hc
      subst hp
      rw [← hcaches]
      exact hinv.2.installed hfetched
    · refine relist_spec hv order hask ?_
      rw [hsame]
      exact (hseen n rfl).mono ht.1.1

theorem refresh_spec (order : Range String RevokedCert) (hask : p = r → (calls i).asks r = true) :
    Holds (machine S) (pact S plan calls r) i (refresh (keeper S order p)) (fun _ _ => True) x := by
  simp only [refresh, lock, unlock, inr_call, call_bind]
  refine quiet_rule rfl fun _ _ _ u _ _ _ _ _ hu => ?_
  refine (refreshLocked_spec u order hask).seq hu fun _ _ _ _ => ?_
  exact quiet_rule rfl fun _ _ _ _ _ _ _ _ _ _ _ _ _ => trivial

theorem isRevoked_spec (serial : String) (order : Range String RevokedCert)
    (hask : p = r → (calls i).asks r = true) :
    Holds (machine S) (pact S plan calls r) i (isRevoked (keeper S order p) serial)
      (fun _ _ => True) x := by
  simp only [isRevoked, peek, time, inr_call, call_bind]
  refine quiet_rule rfl fun _ _ _ _ _ _ _ _ _ _ => quiet_rule rfl fun _ _ _ u _ _ _ _ _ hu => ?_
  split
  · exact fun _ _ _ => trivial
  refine (refresh_spec u order hask).seq hu fun y z hz _ => ?_
  cases y with
  | error er => exact fun _ _ _ => trivial
  | ok _ => exact quiet_rule rfl fun _ _ _ _ _ _ _ _ _ _ _ _ _ => trivial

variable {start : Option (Secret Blob)}

theorem program_spec (r : ρ) (i : ι) :
    Holds (machine S) (pact S (planFor start calls) calls r) i ((calls i).program S)
      (fun _ _ => True) (system S start calls).shared := by
  cases hq : calls i with
  | store q =>
    refine .map ((store_rule (secretstore.program_spec (keeps_inOrder S _ r)
      (fun p m hm => ?_) (secretstore.commitsOf_initial start i))).mono fun _ _ _ _ => trivial)
    exact ⟨p, by rw [hq, hm]⟩
  | refresh p order =>
    exact .map (refresh_spec _ order fun hp => by simp [hq, hp, Request.asks])
  | isRevoked p serial order =>
    exact .map (isRevoked_spec _ serial order fun hp => by simp [hq, hp, Request.asks])

theorem inv_initial (hv : Versioned start) (r : ρ) :
    (pact S (planFor start calls) calls r).inv (system S start calls).shared := by
  refine ⟨⟨secretstore.good_initial (planFor start calls) hv, ?_, ?_⟩, ?_, ?_⟩
  · intro sec h
    cases h
  · intro v old rest _ _ _ _ _ hs
    have hlen := hs.length_le
    cases start with
    | none | some => simp [system, initial] at hlen
  · intro h
    exact absurd rfl h
  · intro t h
    cases h

end Specs

/-! ## The law -/

/-- In a run whose steps are orderly for `r`, a set that a refresh at `r` has installed, or kept
because the epoch has not moved, has each serial that is revoked in a version with its epoch, and
whose certificate had not expired when the refresh took the time. -/
theorem the_set_has_the_serials_of_its_epoch_if_orderly [DecidableEq ρ] [DecidableEq ι]
    (S : Setup ρ store.Op Reply Blob) (hj : S.json.Lawful)
    (hsem : ∀ m now s, S.sem m now s = m.apply now s) (start : Option (Secret Blob))
    (hv : Versioned start) (hfiled : StartCertsFiled S start) (calls : ι → Request ρ) (r : ρ)
    (ls : List (ι × Env)) (c : Conf (@Ans ρ Blob) ι (World ρ ι Blob) (Outcome Blob))
    (hm : Meets (machine S) (Orderly S calls r) (system S start calls) ls)
    (hr : run (machine S) (system S start calls) ls = some c) :
    ((c.shared.2 r).fetched ≠ 0 → ∃ t, (c.shared.2 r).installedAt = some t) ∧
    ∀ t, (c.shared.2 r).installedAt = some t → ∀ v ∈ c.shared.1.server, ∀ st,
      decode S.json (S.document v.secret) = .ok st → st.epoch = (c.shared.2 r).epoch →
      ∀ serial rc, st.revokedCerts.lookup serial = some rc → certLive t rc = true →
        serial ∈ (c.shared.2 r).serials := by
  obtain ⟨⟨⟨hgood, _, hlast⟩, hexp⟩, _⟩ :=
    run_holds (inv_initial hv r)
      (fun i => program_spec r i) hm hr
  refine ⟨fun h => isSome_iff_exists.mp (hexp.installed h), ?_⟩
  intro t ht v hv' st hst hepoch serial rc hrc hlive
  obtain ⟨s', entries, hs', hpair, hpruned, hserials⟩ := hexp.pairing t ht
  rw [hserials]
  exact hpair.complete hj hsem hfiled hgood.chain hlast hs' hpruned hv' hst hepoch hrc hlive

/-- A revocation whose certificate expires ten minutes after the zero time. -/
def leaked : RevokedCert :=
  { serial := "1", revokedAt := 0, notAfter := 600000000000, reason := "" }

/-- A load, a revocation and two refreshes at one replica. -/
def lateList : Fin 4 → Request Bool
  | 0 => .store (.load false false)
  | 1 => .store (.mutate false (.revokeCert leaked))
  | 2 => .refresh false ascendingOrder.certs
  | 3 => .refresh false ascendingOrder.certs

/-- Steps without faults, so many minutes after the zero time. -/
def minute (n : Int) (is : List (Fin 4)) : List (Fin 4 × Env) :=
  is.map fun i => (i, { calm with now := 60000000000 * n })

/-- The load has cached its answer before the revocation. -/
def earlyFill : List (Fin 4 × Env) :=
  minute 1 (numbered ([0, 0, 0] ++ List.replicate 6 1 ++ List.replicate 13 2))

theorem the_set_has_the_serials_of_its_epoch_if_the_late_fill_comes_first :
    ∃ c, run (machine secretstore.twoReplicas)
        (system secretstore.twoReplicas (some secretstore.prepared) lateList) earlyFill = some c ∧
      c.thread 2 = .done (.refreshed (.ok (.relisted ["1"] 60000000000))) ∧
      "1" ∈ (c.shared.2 false).serials := by
  have hv : Versioned (some prepared) := by
    intro sec h
    cases h
    decide
  have hfiled : StartCertsFiled twoReplicas (some prepared) := by
    rintro sec st ⟨⟩ ⟨⟩ serial rc h
    cases h
  refine ⟨_, rfl, rfl, ?_⟩
  exact (the_set_has_the_serials_of_its_epoch_if_orderly secretstore.twoReplicas
    secretstore.plainJson_lawful (fun _ _ _ => rfl) (some secretstore.prepared) hv hfiled lateList
    false earlyFill _ (by decide) rfl).2 60000000000 rfl _ mem_cons_self _ rfl rfl "1" _ rfl
    rfl

/-- The load gets its answer before the revocation, and it caches it between the two
reads of the refresh. -/
def lateListBefore : List (Fin 4 × Env) :=
  minute 1 (numbered ([0, 0] ++ List.replicate 8 1 ++ List.replicate 6 2 ++ [0] ++
    List.replicate 7 2))

/-- The set with the epoch of the revocation misses its serial, and a minute later a
refresh keeps that set because the epoch has not moved. -/
theorem a_late_fill_pins_an_old_list :
    ∃ c₁ c₂ v old stv sto rc,
      run (machine twoReplicas)
        (system twoReplicas (some prepared) lateList) lateListBefore =
          some c₁ ∧
      c₁.thread 2 = .done (.refreshed (.ok (.relisted [] 60000000000))) ∧
      c₁.shared.1.server = [v, old] ∧
      decode secretstore.plainJson (secretstore.twoReplicas.document v.secret) = .ok stv ∧
      decode secretstore.plainJson (secretstore.twoReplicas.document old.secret) = .ok sto ∧
      sto.epoch < stv.epoch ∧ stv.epoch = (c₁.shared.2 false).epoch ∧
      stv.revokedCerts.lookup "1" = some rc ∧
      (c₁.shared.2 false).installedAt = some 60000000000 ∧ 60000000000 < rc.notAfter ∧
      "1" ∉ (c₁.shared.2 false).serials ∧
      run (machine twoReplicas) c₁ (minute 2 (List.replicate 12 3)) = some c₂ ∧
      c₂.thread 3 = .done (.refreshed (.ok .unchanged)) ∧
      (c₂.shared.2 false).fetched = 120000000000 ∧ "1" ∉ (c₂.shared.2 false).serials :=
  ⟨_, _, _, _, _, _, _, rfl, rfl, rfl, rfl, rfl, by decide, rfl, rfl, rfl, by decide, by decide,
    rfl, rfl, rfl, by decide⟩

end prom_fleet.tunnel
