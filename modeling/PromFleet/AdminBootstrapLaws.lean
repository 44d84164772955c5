-- When a bootstrap reveals a token: its call has committed the record, and the document before
-- had no usable admin key, unless one was put in between the listing and the write.
import PromFleet.AdminBootstrap
import PromFleet.History

namespace prom_fleet.hub

open interleave kube store secretstore fleet map_range List Prog Option

variable {ρ ι Blob : Type}

/-! ## The admins of a document -/

/-- No admin key is usable at `t`. -/
def NoAdmin (t : Int) (s : State) : Prop :=
  ∀ kid rec, s.keys.lookup kid = some rec → rec.key.cls = .admin → rec.value.usable t = false

/-- Every admin key that is usable at `t` is under the fixed KID. -/
def OnlyBootstrap (t : Int) (s : State) : Prop :=
  ∀ kid rec, s.keys.lookup kid = some rec → rec.key.cls = .admin → rec.value.usable t = true →
    kid = bootstrapKID

/-- The mutation puts an admin key under another KID than the fixed one. -/
def putsAdmin : Op → Bool
  | .putKey (some k) => decide (k.cls = .admin ∧ k.kid ≠ bootstrapKID)
  | .putKeyIfNoUsable (some k) _ => decide (k.cls = .admin ∧ k.kid ≠ bootstrapKID)
  | .replaceKey (some k) _ _ _ => decide (k.cls = .admin ∧ k.kid ≠ bootstrapKID)
  | _ => false

section Documents

variable {t now : Int} {s s' : State}

theorem NoAdmin.onlyBootstrap (h : NoAdmin t s) : OnlyBootstrap t s := by
  intro kid rec hrec hcls huse
  rw [h kid rec hrec hcls] at huse
  cases huse

variable (h : OnlyBootstrap t s)

include h

theorem OnlyBootstrap.set {kid : String} {r : KeyRecord}
    (hr : r.key.cls = .admin → r.value.usable t = true → kid = bootstrapKID)
    (hkeys : s'.keys = s.keys.insert kid r) : OnlyBootstrap t s' := by
  intro kid' rec hrec hcls huse
  rw [hkeys] at hrec
  obtain ⟨rfl, rfl⟩ | ⟨_, hold⟩ := lookup_insert_cases hrec
  · exact hr hcls huse
  · exact h kid' rec hold hcls huse

theorem OnlyBootstrap.drop
    (hkeys : ∀ kid r, s'.keys.lookup kid = some r → s.keys.lookup kid = some r) :
    OnlyBootstrap t s' :=
  fun kid rec hrec => h kid rec (hkeys kid rec hrec)

theorem OnlyBootstrap.put {k : Key} (hk : decide (k.cls = .admin ∧ k.kid ≠ bootstrapKID) = false)
    (hkeys : s'.keys = s.keys.insert k.kid (recordOf k)) : OnlyBootstrap t s' := by
  refine h.set (fun hcls _ => ?_) hkeys
  by_contra hne
  exact of_decide_eq_false hk ⟨hcls, hne⟩

omit h in
theorem not_usable_revoke (r : KeyRecord) (when_ : Int) (reason : String) :
    (r.revoke when_ reason).value.usable t ≠ true := by
  simp [KeyRecord.revoke, KeyRecord.value, Key.usable, Key.revoked]

/-- Only the put of another admin key makes another admin usable. -/
theorem OnlyBootstrap.apply {m : Op} (hm : putsAdmin m = false)
    (heff : Effect now s m s') : OnlyBootstrap t s' := by
  cases heff with
  | same => exact h
  | putKey | putKeyIfNoUsable => exact h.put hm rfl
  | revokeKey _ => exact h.set (fun _ huse => absurd huse (not_usable_revoke _ _ _)) rfl
  | @replaceKey k oldKID reason at_ old _ _ =>
    have hput : OnlyBootstrap t (putRecord k s) := h.put hm rfl
    exact hput.set (fun _ huse => absurd huse (not_usable_revoke _ _ _)) rfl
  | deleteKey => exact h.drop fun kid r hr => lookup_of_erase hr
  | @touchKey kid at_ r hr =>
    exact h.set (r := r.touch (whenOf at_ now)) (h kid r hr) rfl
  | @burnEnrollment kid _ _ r g hr _ _ _ =>
    exact h.set (r := r.regrant (EnrollmentGrant.redeemed g _ _)) (h kid r hr) rfl
  | revokeCert => exact h
  | prune hb => exact h.drop fun kid r hr => lookup_of_prune hb hr

/-- JSON carries all that decides whether a key is a usable admin. -/
theorem OnlyBootstrap.wire (hkeys : ∀ kid, (s'.keys.lookup kid).map KeyRecord.wire =
      (s.keys.lookup kid).map KeyRecord.wire) : OnlyBootstrap t s' := by
  intro kid rec hrec hcls huse
  have hwire := hkeys kid
  rw [hrec, map_some] at hwire
  obtain ⟨r, hr, heq⟩ := map_eq_some_iff.mp hwire.symm
  refine h kid r hr ?_ ?_
  · exact (congrArg (fun x => x.key.cls) heq).trans hcls
  · exact (congrArg (fun x => x.value.usable t) heq).trans huse

end Documents

/-! ## The call -/

section Spec

variable [DecidableEq ρ] [DecidableEq ι] {S : Setup ρ Op Reply Blob}
  {plan : Plan ι Op Blob} {I : World ρ ι Op Blob → Prop}
  {C : ι → Op ρ Op Blob → Env → World ρ ι Op Blob → Prop} {i : ι}
  {w : World ρ ι Op Blob} {cfg : MintConfig} {minted : Minted}

/-- What a listing has done when it ends: it has written nothing, and what it decoded is a
stored version. -/
def ListedFrom (S : Setup ρ Op Reply Blob) (i : ι) (x : Except ReadErr (State × Nat))
    (w : World ρ ι Op Blob) : Prop :=
  commitsOf i w = [] ∧ ∀ st n, x = .ok (st, n) →
    ∃ sec, Stored sec w.server ∧ sec.resourceVersion = n ∧ decode S.json (S.document sec) = .ok st

theorem unlisted_spec {e : ReadErr} (hcom : commitsOf i w = []) :
    Fulfils S plan I C i (.done (.error e)) (ListedFrom S i) w :=
  holds_done fun _ _ hc => ⟨hc.trans hcom, fun _ _ he => by cases he⟩

theorem readVersion_spec (hI : Keeps S plan I C) (r : ρ) (hcom : commitsOf i w = []) :
    Fulfils S plan I C i (readVersion S r) (ListedFrom S i) w := by
  unfold readVersion
  simp only [call_bind, pure_eq]
  refine holds_op hI (fun _ _ _ => trivial) fun t e closed v hclosed => ?_
  refine holds_op hI (fun _ _ _ => trivial) fun t' e' done v' hctx => ?_
  have hcv : commitsOf i v' = [] :=
    (hctx.commits (by simp)).trans ((hclosed.commits (by simp)).trans hcom)
  split
  · exact unlisted_spec hcv
  split
  · exact unlisted_spec hcv
  refine (secretstore.load_spec hI r false v').seq ⟨hctx.good', hctx.kept'⟩ fun x u hinv hload => ?_
  obtain ⟨_, hcu, hsrc⟩ := hload
  cases x with
  | error er => exact unlisted_spec (hcu.trans hcv)
  | ok sec =>
    simp only
    split
    · exact unlisted_spec (hcu.trans hcv)
    rename_i st hst
    refine holds_done fun x hx hc => ⟨hc.trans (hcu.trans hcv), fun st' n he => ?_⟩
    cases he
    exact ⟨sec, (hsrc sec rfl).1.stored.mono hx.1, rfl, hst⟩

/-- What a bootstrap has done when it ends in `w`: with a token it has written the record of
that token, and before that it had listed a stored version without a usable admin. -/
def Bootstrapped (S : Setup ρ Op Reply Blob) (cfg : MintConfig) (minted : Minted) (i : ι)
    (x : BootstrapAnswer) (w : World ρ ι Op Blob) : Prop :=
  match x with
  | .revealed raw clock listed => raw = minted.raw ∧ ∃ at_ t s₀ sec st,
      (clock ≠ 0 → at_ = clock) ∧
      commitsOf i w =
        [(.putKeyIfNoUsable (some (bootstrapRecord cfg minted clock)) at_, t)] ∧
      s₀ <:+ w.server ∧ s₀.filterMap (commitBy i) = [] ∧ Stored sec s₀ ∧
      sec.resourceVersion = listed ∧ decode S.json (S.document sec) = .ok st ∧ NoAdmin clock st
  | _ => True

variable {clock : Int} {st : State}

theorem noAdmin_of_list {order : Range String KeyRecord}
    (h : ¬(listKeys order .admin st).any (fun k => k.usable clock) = true) : NoAdmin clock st := by
  intro kid rec hrec hcls
  have hnamed : KeyClass.admin ≠ .unknown "" := nofun
  have hin : rec.value ∈ listKeys order .admin st :=
    (mem_listKeys order hnamed st rec.value).mpr ⟨kid, rec, hrec, hcls, rfl⟩
  by_contra huse
  exact h (any_eq_true.mpr ⟨rec.value, hin, by simpa using huse⟩)

theorem unrevealed_spec {x : BootstrapAnswer} (hx : ∀ raw clock n, x ≠ .revealed raw clock n) :
    Fulfils S plan I C i (.done x) (Bootstrapped S cfg minted i) w := by
  refine holds_done fun _ _ _ => ?_
  cases x with
  | revealed raw clock n => exact absurd rfl (hx raw clock n)
  | _ => trivial

theorem write_spec (hI : Keeps S plan I C) (r : ρ) {at_ : Int} {listed : Nat} {sec : Secret Blob}
    (hinv : (pact S plan I C).inv w)
    (hcarry : plan.carries i (.putKeyIfNoUsable (some (bootstrapRecord cfg minted clock)) at_))
    (hat : clock ≠ 0 → at_ = clock) (hcom : commitsOf i w = []) (hsec : Stored sec w.server)
    (hn : sec.resourceVersion = listed) (hst : decode S.json (S.document sec) = .ok st)
    (hno : NoAdmin clock st) : Fulfils S plan I C i
      (mutate S r (.putKeyIfNoUsable (some (bootstrapRecord cfg minted clock)) at_) >>= fun x =>
        .done (bootstrapAnswer minted.raw clock listed x)) (Bootstrapped S cfg minted i) w := by
  refine .bind hinv ?_
  -- what was listed stays a part of the history of the server while the write runs
  have hframe := Holds.frame (P := pact S plan I C) (i := i)
    (F := fun u : World ρ ι Op Blob => w.server <:+ u.server)
    (fun _ _ hr hs => hs.trans hr.1.1) (fun _ _ hg hs => hs.trans hg.1.1) (suffix_refl _)
    (mutate_spec hI r hcarry hcom)
  refine hframe.mono fun x u _ hx => ?_
  cases x with
  | committed b written =>
    obtain ⟨⟨_, t, _, hcu⟩, hgrown⟩ := hx
    refine holds_done fun v hv hc => ⟨rfl, at_, t, w.server, sec, st, hat, hc.trans hcu,
      hgrown.trans hv.1, hcom, hsec, hn, hst, hno⟩
  | _ => exact unrevealed_spec nofun

theorem bootstrapAdminKey_spec (hI : Keeps S plan I C) (r : ρ) (order : Range String KeyRecord)
    (hinv : (pact S plan I C).inv w) (hcarry : ∀ clock at_,
      plan.carries i (.putKeyIfNoUsable (some (bootstrapRecord cfg minted clock)) at_))
    (hcom : commitsOf i w = []) : Fulfils S plan I C i (bootstrapAdminKey S cfg r order minted)
      (Bootstrapped S cfg minted i) w := by
  refine (readVersion_spec hI r hcom).seq hinv fun x v hv hlist => ?_
  cases x with
  | error e => exact unrevealed_spec nofun
  | ok found =>
    obtain ⟨st, listed⟩ := found
    obtain ⟨hcv, hfound⟩ := hlist
    obtain ⟨sec, hsec, hn, hst⟩ := hfound st listed rfl
    refine holds_op hI (fun _ _ _ => trivial) fun t e clock u hnow => ?_
    have hcu : commitsOf i u = [] := (hnow.commits (by simp)).trans hcv
    have hsec' := hsec.mono hnow.all.1
    change Holds _ _ i (if (listKeys order .admin st).any (fun k => k.usable clock) = true then _
      else _) _ u
    split
    · exact unrevealed_spec nofun
    rename_i hnone
    have hno := noAdmin_of_list hnone
    unfold putKeyIfNoUsable
    by_cases hzero : clock = 0
    · -- the store reads its own clock in place of a zero time
      rw [if_pos ((isZero_iff clock).mpr hzero)]
      refine holds_op hI (fun _ _ _ => trivial) fun t' e' at_ u' hnow' => ?_
      exact write_spec hI r ⟨hnow'.good', hnow'.kept'⟩ (hcarry clock at_)
        (fun h => absurd hzero h) ((hnow'.commits (by simp)).trans hcu)
        (hsec'.mono hnow'.all.1) hn hst hno
    · rw [if_neg fun h => hzero ((isZero_iff clock).mp h)]
      exact write_spec hI r ⟨hnow.good', hnow.kept'⟩ (hcarry clock clock) (fun _ => rfl) hcu
        hsec' hn hst hno

/-- What a call has done when it ends. -/
def AdminPromise (S : Setup ρ Op Reply Blob) (cfg : MintConfig) (i : ι) :
    AdminRequest ρ → AdminAnswer Blob → World ρ ι Op Blob → Prop
  | .bootstrap _ _ minted, .bootstrapped x, w => Bootstrapped S cfg minted i x w
  | .store _, .stored _, _ => True
  | _, _, _ => False

variable {calls : ι → AdminRequest ρ} {start : Option (Secret Blob)}

theorem adminProgram_spec
    (hinv : (pact S (adminPlan cfg start calls) (fun _ => True) fun _ _ _ _ => True).inv w)
    (hcom : commitsOf i w = []) :
    Holds (machine S) (pact S (adminPlan cfg start calls) (fun _ => True) fun _ _ _ _ => True) i
      ((calls i).program S cfg) (AdminPromise S cfg i (calls i)) w := by
  have hI := keeps_true S (adminPlan cfg start calls) fun _ _ _ _ => True
  cases hq : calls i with
  | bootstrap r order minted =>
    refine .map (bootstrapAdminKey_spec hI r order hinv (fun clock at_ => ?_) hcom)
    simp only [adminPlan, hq]
    exact ⟨clock, at_, rfl⟩
  | store q =>
    refine .map ((program_spec hI (fun r m hm => ?_) hcom).mono fun _ _ _ _ => trivial)
    simp only [adminPlan, hq, hm]

theorem adminPromise_of_run (hv : Versioned start) {ls : List (ι × Env)}
    {c : Conf (@Ans ρ Op Blob) ι (World ρ ι Op Blob) (AdminAnswer Blob)}
    (hr : run (machine S) (adminSystem S cfg start calls) ls = some c) :
    Good S (adminPlan cfg start calls) c.shared ∧
      ∀ i x, c.thread i = .done x → AdminPromise S cfg i (calls i) x c.shared := by
  have hinv : (pact S (adminPlan cfg start calls) (fun _ => True) fun _ _ _ _ => True).inv
      (adminSystem S cfg start calls).shared :=
    ⟨good_initial (adminPlan cfg start calls) hv, trivial⟩
  have hspec : ∀ i, Holds (machine S)
      (pact S (adminPlan cfg start calls) (fun _ => True) fun _ _ _ _ => True) i
      ((adminSystem S cfg start calls).thread i) (AdminPromise S cfg i (calls i))
      (adminSystem S cfg start calls).shared :=
    fun i => adminProgram_spec hinv (commitsOf_initial start i)
  exact ⟨(run_holds hinv hspec (meets_true _ ls) hr).1.1,
    fun i x hd => done_of_run hinv hspec (meets_true _ ls) hr hd⟩

end Spec

/-! ## The law -/

section Law

variable {S : Setup ρ Op Reply Blob} {start : Option (Secret Blob)} {i : ι}
  {s : List (Version Blob (Note ι Op))} {later rest : List (Version Blob (Note ι Op))}
  {t : Int} {v : Version Blob (Note ι Op)}

/-- The documents on the two sides of a write that was committed: the older one has no usable
record under the KID, and the newer one has the record. -/
theorem sides_of_write (hj : S.json.Lawful) (hsem : ∀ m now s, S.sem m now s = m.apply now s)
    (hc : Chain S start s) {k : Key} {at_ : Int} (hs : s = later ++ v :: rest)
    (hv : v.note = some (i, .putKeyIfNoUsable (some k) at_, t)) :
    ∃ replaced earlier st st', rest = replaced :: earlier ∧
      decode S.json (S.document replaced.secret) = .ok st ∧
      decode S.json (S.document v.secret) = .ok st' ∧ getKey k.kid st' = .ok k ∧
      ∀ r, st.keys.lookup k.kid = some r → r.value.usable at_ = false := by
  obtain ⟨replaced, earlier, sec, rfl, hp, hdoc⟩ := hc.commit_of_note hs hv
  obtain ⟨st, a, st', hst, ha, hch, hst', _, _, hkeys⟩ := hp.decodes hj
  rw [hsem] at ha
  obtain ⟨b, hb, rfl⟩ := map_reply_ok ha
  rcases putKeyIfNoUsable_cases hb with ⟨hsame, _⟩ | ⟨k', hk, _, hstate, hunusable⟩
  · rw [show b.changed = true from hch] at hsame
    cases hsame
  obtain rfl := Option.some.inj hk
  refine ⟨replaced, earlier, st, st', rfl, hst, hdoc ▸ hst', ?_, hunusable⟩
  have hwire := hkeys k.kid
  rw [Applied.reply_state, hstate, show (bump (putRecord k st)).keys.lookup k.kid =
    some (recordOf k) from Finmap.lookup_insert _, map_some] at hwire
  obtain ⟨r, hr, heq⟩ := map_eq_some_iff.mp hwire
  have hvalue : r.value = k := congrArg KeyRecord.value heq
  unfold getKey
  rw [hr]
  exact congrArg Except.ok hvalue

variable [DecidableEq ι]

/-- What the server had before the call wrote anything is below the version that it wrote. -/
theorem suffix_of_commit {s₀ : List (Version Blob (Note ι Op))} {m : Op}
    (hs : s = later ++ v :: rest) (hv : v.note = some (i, m, t)) (hs₀ : s₀ <:+ s)
    (hnone : s₀.filterMap (commitBy i) = []) : s₀ <:+ rest := by
  have hnot : v ∉ s₀ := by
    intro hin
    have hmem : (m, t) ∈ s₀.filterMap (commitBy i) :=
      mem_filterMap.mpr ⟨v, hin, by simp [commitBy, hv]⟩
    rw [hnone] at hmem
    cases hmem
  have hrest : v :: rest <:+ s := ⟨later, hs.symm⟩
  rcases suffix_or_suffix_of_suffix hs₀ hrest with hbelow | habove
  · rcases suffix_cons_iff.mp hbelow with heq | hbelow
    · rw [heq] at hnot
      exact absurd mem_cons_self hnot
    · exact hbelow
  · exact absurd (habove.subset mem_cons_self) hnot

/-- No version between the one that the call listed and the one that it wrote puts an admin key
under another KID. -/
def NoOtherAdmin (i : ι) (listed : Nat) (s : List (Version Blob (Note ι Op))) : Prop :=
  ∀ later v earlier, s = later ++ v :: earlier → (commitBy i v).isSome = true →
    ∀ u ∈ earlier, listed < u.secret.resourceVersion →
      ∀ j m t, u.note = some (j, m, t) → putsAdmin m = false

/-- The document accepts the token at `t`. -/
def TokenUsable (cfg : MintConfig) (minted : Minted) (t : Int) (s : State) : Prop :=
  ∃ key, getKey bootstrapKID s = .ok key ∧ key.secretHMAC = cfg.hmac minted.secret ∧
    key.cls = .admin ∧ key.usable t = true

/-- A bootstrap that reveals a token has committed the record of it, and if no other admin key was
put in between its listing and its write, the document before the write had no admin key that was
usable at the reading of the call. Two tokens are never both usable. -/
theorem a_token_goes_to_a_hub_without_an_admin_if_undisturbed [DecidableEq ρ]
    (S : Setup ρ Op Reply Blob) (hj : S.json.Lawful)
    (hsem : ∀ m now s, S.sem m now s = m.apply now s) (cfg : MintConfig)
    (start : Option (Secret Blob)) (hv : Versioned start) (calls : ι → AdminRequest ρ)
    (ls : List (ι × Env))
    (c : Conf (@Ans ρ Op Blob) ι (World ρ ι Op Blob) (AdminAnswer Blob))
    (hrun : run (machine S) (adminSystem S cfg start calls) ls = some c) (i : ι) (r : ρ)
    (order : Range String KeyRecord) (minted : Minted) (hcall : calls i = .bootstrap r order minted)
    (raw : String) (clock : Int) (listed : Nat)
    (hdone : c.thread i = .done (.bootstrapped (.revealed raw clock listed))) (hclock : clock ≠ 0)
    (hquiet : NoOtherAdmin i listed c.shared.server) :
    raw = minted.raw ∧
    (∃ later v replaced earlier t st st', c.shared.server = later ++ v :: replaced :: earlier ∧
      v.note = some (i, .putKeyIfNoUsable (some (bootstrapRecord cfg minted clock)) clock, t) ∧
      decode S.json (S.document v.secret) = .ok st' ∧
      getKey bootstrapKID st' = .ok (bootstrapRecord cfg minted clock) ∧
      decode S.json (S.document replaced.secret) = .ok st ∧ NoAdmin clock st) ∧
    ∀ minted', cfg.hmac minted'.secret ≠ cfg.hmac minted.secret →
      ∀ st t, ¬(TokenUsable cfg minted t st ∧ TokenUsable cfg minted' t st) := by
  obtain ⟨hgood, hpromise⟩ := adminPromise_of_run hv hrun
  have hboot := hpromise i _ hdone
  rw [hcall] at hboot
  obtain ⟨hraw, at_, t, s₀, sec, stListed, hat, hcom, hs₀, hnone, ⟨a, ha, rfl⟩, rfl, hstListed,
    hno⟩ := hboot
  rw [hat hclock] at hcom
  -- the version that the call wrote, and the one that it replaced
  have hcommit := (mem_commits c.shared i _ t).mpr (hcom ▸ mem_singleton_self _)
  obtain ⟨v, hmem, hnote⟩ := mem_filterMap.mp hcommit
  obtain ⟨later, rest, hserver⟩ := append_of_mem (mem_reverse.mp hmem)
  obtain ⟨replaced, earlier, st, st', rfl, hst, hst', hkey, hunusable⟩ :=
    sides_of_write hj hsem hgood.chain hserver hnote
  have hbelow := suffix_of_commit hserver hnote hs₀ hnone
  refine ⟨hraw, ⟨later, v, replaced, earlier, t, st, st', hserver, hnote, hst', hkey, hst, ?_⟩, ?_⟩
  · obtain ⟨newer, older, rfl⟩ := append_of_mem ha
    have hlisted : a :: older <:+ replaced :: earlier := (suffix_append _ _).trans hbelow
    have hbefore : replaced :: earlier <:+ c.shared.server := ⟨later ++ [v], by simp [hserver]⟩
    have honly : OnlyBootstrap clock st := by
      refine hgood.chain.between hj hlisted hbefore (fun st₀ hst₀ => ?_) ?_ st hst
      · rw [hstListed] at hst₀
        cases hst₀
        exact hno.onlyBootstrap
      · intro u old rest j m t' st₀ x st₁ hu hold hnote' _ hx _ _ hkeys hP
        have hlater : a.secret.resourceVersion < u.secret.resourceVersion :=
          (pairwise_cons.mp (hgood.ordered.pairwise.sublist (hu.trans hbefore).sublist)).1 a
            (hold.subset mem_cons_self)
        have hputs := hquiet later v (replaced :: earlier) hserver (by simp [commitBy, hnote]) u
          (hu.subset mem_cons_self) hlater j m t' hnote'
        rw [hsem] at hx
        exact (hP.apply hputs (apply_effect hx)).wire hkeys
    intro kid rec hrec hcls
    by_contra huse
    have huse := Bool.not_eq_false _ ▸ huse
    obtain rfl := honly kid rec hrec hcls huse
    rw [hunusable rec hrec] at huse
    cases huse
  · rintro minted' hne st t ⟨⟨key, hget, hmac, _⟩, key', hget', hmac', _⟩
    rw [hget] at hget'
    cases hget'
    exact hne (hmac'.symm.trans hmac)

end Law

/-! ## Two replicas -/

def plainMint : MintConfig := { adminKeyTTL := 0, hmac := id }

/-- The admin key of an operator. -/
def opsKey : Key := { bootstrapRecord plainMint ⟨"", [9]⟩ 1 with kid := "ops", name := "ops" }

/-- Each replica bootstraps, and an operator at the second one puts a key of their own and
revokes the first one. -/
def bootRequests : Fin 4 → AdminRequest Bool
  | 0 => .bootstrap false ascending ⟨"late", [2]⟩
  | 1 => .bootstrap true ascending ⟨"early", [1]⟩
  | 2 => .store (.mutate true (.putKey (some opsKey)))
  | 3 => .store (.mutate true (.revokeKey bootstrapKID "replaced" 0))

/-- The listing of the first replica is from before all that the second one does. -/
def lateWrite : List (Fin 4 × Env) :=
  steps (numbered (List.replicate 7 0 ++ List.replicate 12 1 ++ List.replicate 6 2 ++
    List.replicate 6 3 ++ List.replicate 12 0))

/-- The replica with the late write reveals its token, and the document that the write replaced
has the usable admin key of the operator. -/
theorem a_late_bootstrap_reveals_a_token_beside_an_admin :
    ∃ c v replaced earlier st rec, run (machine twoReplicas)
        (adminSystem twoReplicas plainMint none bootRequests) lateWrite = some c ∧
      c.thread 0 = .done (.bootstrapped (.revealed "late" 1 1)) ∧
      c.thread 1 = .done (.bootstrapped (.revealed "early" 1 1)) ∧
      c.shared.server = v :: replaced :: earlier ∧ v.note.map Prod.fst = some 0 ∧
      decode plainJson (twoReplicas.document replaced.secret) = .ok st ∧
      st.keys.lookup "ops" = some rec ∧ rec.key.cls = .admin ∧ rec.value.usable 1 = true :=
  ⟨_, _, _, _, _, _, rfl, rfl, rfl, rfl, rfl, rfl, rfl, rfl, rfl⟩

/-- Both replicas bootstrap at once. -/
def bootRace : List (Fin 4 × Env) :=
  steps (numbered (List.replicate 7 0 ++ List.replicate 12 1 ++ List.replicate 10 0))

/-- The replica that wins the race reveals its token to a hub without an admin. -/
theorem the_winner_of_a_bootstrap_race_reveals_its_token :
    ∃ c, run (machine twoReplicas) (adminSystem twoReplicas plainMint none bootRequests) bootRace =
        some c ∧ c.thread 1 = .done (.bootstrapped (.revealed "early" 1 1)) ∧
      ∃ later v replaced earlier t st st', c.shared.server = later ++ v :: replaced :: earlier ∧
        v.note = some (1, .putKeyIfNoUsable
          (some (bootstrapRecord plainMint ⟨"early", [1]⟩ 1)) 1, t) ∧
        decode plainJson (twoReplicas.document v.secret) = .ok st' ∧
        getKey bootstrapKID st' = .ok (bootstrapRecord plainMint ⟨"early", [1]⟩ 1) ∧
        decode plainJson (twoReplicas.document replaced.secret) = .ok st ∧ NoAdmin 1 st := by
  refine ⟨_, rfl, rfl, (a_token_goes_to_a_hub_without_an_admin_if_undisturbed twoReplicas
    plainJson_lawful (fun _ _ _ => rfl) plainMint none (fun _ h => by cases h) bootRequests
    bootRace _ rfl 1 true ascending ⟨"early", [1]⟩ rfl "early" 1 1 rfl (by decide) ?_).2.1⟩
  -- below the version of the winner there is only the first one, which nobody noted
  intro later v earlier hserver _ u hu _ j m t hnote
  have hnotes : (later ++ v :: earlier).map (fun v => v.note.map Prod.fst) = [some 1, none] := by
    rw [← hserver]
    rfl
  have hbelow : earlier.map (fun v => v.note.map Prod.fst) <:+ [none] := by
    rw [map_append, map_cons] at hnotes
    cases later with
    | nil => exact ⟨[], (List.cons.inj hnotes).2⟩
    | cons x later => exact (suffix_cons _ _).trans ⟨_, (List.cons.inj hnotes).2⟩
  have hin := hbelow.subset (mem_map_of_mem hu)
  rw [hnote] at hin
  simp at hin

end prom_fleet.hub
