-- The enrollment law: however many replicas redeem a token at once, no more
-- certificates come out of it than its grant allows, and the count in the record
-- is the number of burns that went through.
import PromFleet.Enroll

namespace prom_fleet

open List Finmap Option

namespace store

open fleet

/-! ## The grant of a record -/

def grantOf (kid : String) (s : State) : Option EnrollmentGrant :=
  (s.keys.lookup kid).bind fun r => r.key.enrollment

/-- The operation writes a new record under the KID. -/
def Op.mints (kid : String) : Op → Bool
  | .putKey k => decide ((k.map fun k => k.kid) = some kid)
  | .putKeyIfNoUsable k _ => decide ((k.map fun k => k.kid) = some kid)
  | .replaceKey k _ _ _ => decide ((k.map fun k => k.kid) = some kid)
  | _ => false

/-- The operation redeems the token of the KID. -/
def Op.burns (kid : String) : Op → Bool
  | .burnEnrollment kid' _ _ => decide (kid' = kid)
  | _ => false

variable {kid kid' : String} {r : KeyRecord} {s s' : State}

theorem grantOf_insert (hs : s'.keys = s.keys.insert kid' r)
    (h : kid = kid' → grantOf kid s = r.key.enrollment) : grantOf kid s' = grantOf kid s := by
  unfold grantOf at *
  rw [hs]
  by_cases hk : kid = kid'
  · rw [h hk, hk, lookup_insert]
    rfl
  · rw [lookup_insert_of_ne _ hk]

theorem grantOf_update (r' : KeyRecord) (hr : s.keys.lookup kid' = some r)
    (hs : s'.keys = s.keys.insert kid' r') (he : r'.key.enrollment = r.key.enrollment) :
    grantOf kid s' = grantOf kid s := by
  refine grantOf_insert hs fun hk => ?_
  rw [hk, grantOf, hr, he]
  rfl

theorem grantOf_mint {k : Key} (hk : k.kid ≠ kid)
    (hs : s'.keys = s.keys.insert k.kid (recordOf k)) : grantOf kid s' = grantOf kid s :=
  grantOf_insert hs fun h => absurd h.symm hk

variable {m : Op} {now : Int}

/-- An operation that neither mints nor burns the token keeps its grant or
drops the record. -/
theorem grantOf_kept (h : Effect now s m s') (hm : m.mints kid = false) (hb : m.burns kid = false) :
    grantOf kid s' = grantOf kid s ∨ grantOf kid s' = none := by
  cases h with
  | same => exact .inl rfl
  | putKey | putKeyIfNoUsable => exact .inl (grantOf_mint (by simpa [Op.mints] using hm) rfl)
  | @revokeKey _ _ _ r hr => exact .inl (grantOf_update (r.revoke _ _) hr rfl rfl)
  | @replaceKey k oldKID _ _ old hnone hold =>
    have hne : oldKID ≠ k.kid := by
      rintro rfl
      rw [hnone] at hold
      cases hold
    have hold' : (bump (putRecord k s)).keys.lookup oldKID = some old :=
      (lookup_insert_of_ne _ hne).trans hold
    left
    rw [grantOf_update (old.revoke _ _) hold' rfl rfl]
    exact grantOf_mint (by simpa [Op.mints] using hm) rfl
  | @deleteKey kid' =>
    by_cases hk : kid = kid'
    · right
      change ((s.keys.erase kid').lookup kid).bind _ = none
      rw [hk, lookup_erase]
      rfl
    · left
      change ((s.keys.erase kid').lookup kid).bind _ = _
      rw [lookup_erase_ne hk]
      rfl
  | @touchKey _ _ r hr => exact .inl (grantOf_update (r.touch _) hr rfl rfl)
  | @burnEnrollment kid' _ _ r g =>
    have hk : kid' ≠ kid := by simpa [Op.burns] using hb
    exact .inl (grantOf_insert rfl fun h => absurd h.symm hk)
  | revokeCert => exact .inl rfl
  | prune hpruned =>
    obtain ⟨_, _, hkeys, _⟩ := prune_cases hpruned
    unfold grantOf
    rw [hkeys kid]
    cases s.keys.lookup kid with
    | none => exact .inl rfl
    | some r => rw [filter_some]; split <;> simp

variable {a : Applied Reply}

/-- A burn that goes through redeems the grant of a usable record once more. -/
theorem grantOf_burned {serial : String} {at_ : Int}
    (h : (Op.burnEnrollment kid serial at_).apply now s = .ok a) :
    ∃ r g, s.keys.lookup kid = some r ∧ r.key.usable (whenOf at_ now) = true ∧
      grantOf kid s = some g ∧ EnrollmentGrant.spent g kid = none ∧
      grantOf kid a.state = some (EnrollmentGrant.redeemed g (whenOf at_ now) serial) := by
  obtain ⟨b, hb, rfl⟩ := map_reply_ok h
  obtain ⟨r, g, hr, _, hg, huse, hspent, _, hs⟩ := burnEnrollment_cases hb
  refine ⟨r, g, hr, huse, ?_, hspent, ?_⟩
  · rw [grantOf, hr]
    exact hg
  rw [Applied.reply_state, hs]
  change ((s.keys.insert kid _).lookup kid).bind _ = _
  rw [lookup_insert]
  rfl

/-! ## The count -/

/-- After `n` burns of the grant `g`, the number is within what the grant
allows, and the grant in the record, if it is still there, counts them. -/
structure Redeemed (g : EnrollmentGrant) (n : Nat) (g? : Option EnrollmentGrant) : Prop where
  once : g.reusable = false → n ≤ 1
  capped : g.reusable = true → 0 < g.maxRedemptions → 0 < n → g.redemptions + n ≤ g.maxRedemptions
  counted : ∀ g', g? = some g' → g'.redemptions = g.redemptions + n ∧ g'.reusable = g.reusable ∧
    g'.maxRedemptions = g.maxRedemptions ∧ (g.reusable = false → 0 < n → g'.usedAt.isSome = true)

theorem redeemed_zero (g : EnrollmentGrant) : Redeemed g 0 (some g) := by
  refine ⟨fun _ => Nat.zero_le 1, fun _ _ h => absurd h (by decide), ?_⟩
  intro g' hg
  cases hg
  exact ⟨by simp, rfl, rfl, fun _ h => absurd h (by decide)⟩

variable {g : EnrollmentGrant} {n : Nat}

theorem Redeemed.kept {g? g?' : Option EnrollmentGrant} (h : Redeemed g n g?)
    (hk : g?' = g? ∨ g?' = none) : Redeemed g n g?' := by
  rcases hk with rfl | rfl
  · exact h
  · exact ⟨h.once, h.capped, fun _ h => by cases h⟩

/-- One more burn stays within the grant, because it was not spent. -/
theorem Redeemed.burned {g' : EnrollmentGrant} (h : Redeemed g n (some g'))
    (hs : EnrollmentGrant.spent g' kid = none) (when_ : Int) (serial : String) :
    Redeemed g (n + 1) (some (EnrollmentGrant.redeemed g' when_ serial)) := by
  obtain ⟨hred, hreuse, hmax, hused⟩ := h.counted g' rfl
  unfold EnrollmentGrant.spent at hs
  refine ⟨fun hr => ?_, fun hr hpos _ => ?_, ?_⟩
  · rw [hreuse, hr] at hs
    have hfresh : g'.usedAt = none := by
      cases hu : g'.usedAt with
      | none => rfl
      | some t => simp [hu] at hs
    have hn : ¬ 0 < n := fun hn => by simpa [hfresh] using hused hr hn
    omega
  · rw [hreuse, hr, hmax, hred] at hs
    simp only [if_true] at hs
    split at hs
    · cases hs
    · push_cast
      omega
  · intro g'' hg
    cases hg
    refine ⟨?_, hreuse, hmax, fun _ _ => rfl⟩
    simp only [EnrollmentGrant.redeemed, hred]
    omega

theorem grantOf_congr
    (h : (s'.keys.lookup kid).map KeyRecord.wire = (s.keys.lookup kid).map KeyRecord.wire) :
    grantOf kid s' = grantOf kid s := by
  have hwire : ∀ x : Option KeyRecord, (x.bind fun r => r.key.enrollment) =
      (x.map KeyRecord.wire).bind fun r => r.key.enrollment := by
    intro x
    cases x <;> rfl
  unfold grantOf
  rw [hwire, h, ← hwire]

/-- One operation of the document, seen from the grant. -/
theorem Redeemed.apply (h : Redeemed g n (grantOf kid s)) (hm : m.mints kid = false)
    (ha : m.apply now s = .ok a) :
    Redeemed g (n + if m.burns kid then 1 else 0) (grantOf kid a.state) := by
  cases hb : m.burns kid with
  | false => exact h.kept (grantOf_kept (apply_effect ha) hm hb)
  | true =>
    cases m with
    | burnEnrollment kid' serial at_ =>
      obtain rfl : kid' = kid := by simpa [Op.burns] using hb
      obtain ⟨_, g', _, _, hg', hspent, hafter⟩ := grantOf_burned ha
      rw [hafter]
      rw [hg'] at h
      exact h.burned hspent _ _
    | _ => cases hb

end store

namespace hubapi

open interleave kube store secretstore fleet

variable {ρ ι Blob : Type} {S : Setup ρ Op Reply Blob} {start : Option (Secret Blob)}

/-- The grant of the record in the persisted document. -/
def grantAt (S : Setup ρ Op Reply Blob) (kid : String)
    (server : List (Version Blob (Note ι Op))) : Option EnrollmentGrant :=
  match current server with
  | none => none
  | some sec =>
    match decode S.json (S.document sec) with
    | .error _ => none
    | .ok st => grantOf kid st

variable {kid : String}

theorem grantAt_cons {v : Version Blob (Note ι Op)}
    {vs : List (Version Blob (Note ι Op))} {st : State}
    (h : decode S.json (S.document v.secret) = .ok st) :
    grantAt S kid (v :: vs) = grantOf kid st := by
  simp only [grantAt, current, List.head?_cons, map_some, h]

/-- The calls among the commits that redeemed the token. -/
def burners (kid : String) (cs : List (ι × Op × Int)) : List ι :=
  (cs.filter fun c => c.2.1.burns kid).map Prod.fst

theorem burners_append (kid : String) (cs cs' : List (ι × Op × Int)) :
    burners kid (cs ++ cs') = burners kid cs ++ burners kid cs' := by
  simp [burners]

theorem commits_append (s s' : List (Version Blob (Note ι Op))) :
    commits (s ++ s') = commits s' ++ commits s := by
  simp [commits]

variable {newer : List (Version Blob (Note ι Op))} (hj : S.json.Lawful)
  (hsem : ∀ m now s, S.sem m now s = m.apply now s)

include hj hsem in
/-- The versions that were added to a document with the grant `g` count the
burns among them. -/
theorem redeemed_of_chain {g : EnrollmentGrant} {older : List (Version Blob (Note ι Op))}
    (hc : Chain S start (newer ++ older)) (hg : grantAt S kid older = some g)
    (hm : ∀ c ∈ commits newer, c.2.1.mints kid = false) :
    Redeemed g (burners kid (commits newer)).length (grantAt S kid (newer ++ older)) := by
  induction newer with
  | nil =>
    rw [nil_append, hg]
    exact redeemed_zero g
  | cons v newer ih =>
    rw [commits_push] at hm ⊢
    generalize hs : newer ++ older = rest at *
    rw [cons_append, hs] at hc ⊢
    cases hc with
    | given | created =>
      rw [(append_eq_nil_iff.mp hs).2] at hg
      cases hg
    | @commit v' vs i m t sec rv hc' hp =>
      obtain ⟨st, a, st', hst, ha, _, hst', _, _, hkeys⟩ := hp.decodes hj
      rw [hsem] at ha
      have hih := ih hc' fun c h => hm c (mem_append_left _ h)
      rw [grantAt_cons hst] at hih
      have hstep := hih.apply (hm (i, m, t) (by simp)) ha
      rw [grantAt_cons hst', grantOf_congr (hkeys kid), burners_append, length_append]
      cases hb : m.burns kid <;> simpa [burners, hb] using hstep

/-! ## The documents of a run are filed -/

/-- The document that the run starts from files its records under their KIDs. -/
def StartFiled (S : Setup ρ Op Reply Blob) (start : Option (Secret Blob)) : Prop :=
  ∀ sec st, start = some sec → decode S.json (S.document sec) = .ok st → Filed st

theorem filed_wire {s s' : State} (hf : Filed s)
    (h : ∀ kid, (s'.keys.lookup kid).map KeyRecord.wire = (s.keys.lookup kid).map KeyRecord.wire) :
    Filed s' := by
  intro kid r hr
  have hk := h kid
  rw [hr, map_some] at hk
  obtain ⟨r', hr', hw⟩ := map_eq_some_iff.mp hk.symm
  have hkid : r'.key.kid = r.key.kid := congrArg (fun r => r.key.kid) hw
  rw [← hkid]
  exact hf kid r' hr'

variable {s : List (Version Blob (Note ι Op))}

include hj hsem in
theorem filed_of_chain (hstart : StartFiled S start) (hc : Chain S start s) :
    ∀ v ∈ s, ∀ st, decode S.json (S.document v.secret) = .ok st → Filed st := by
  refine hc.forall_docs hj hstart filed_newState (fun m t st a hf ha => ?_)
    fun st st' hf _ hkeys => filed_wire hf hkeys
  rw [hsem] at ha
  exact filed_apply hf (apply_effect ha)

variable {w : World ρ ι Op Blob}

include hj hsem in
/-- In filed documents, a redemption burns the KID that was presented. -/
theorem Held.kid_eq (hstart : StartFiled S start) (hc : Chain S start w.server) {key : Key}
    (h : Held S kid key w) :
    key.kid = kid := by
  obtain ⟨sec, st, ⟨v, hv, rfl⟩, hst, hget⟩ := h
  have hf := filed_of_chain hj hsem hstart hc v hv st hst
  unfold store.getKey at hget
  split at hget
  · cases hget
  rename_i r hr
  cases hget
  exact hf kid r hr

/-! ## The law -/

/-- An update that is reported as failed was not applied. -/
def tellsUpdates (o : Op ρ Op Blob) (e : Env) : Bool :=
  match o with
  | .updateSecret _ _ _ => decide (e.fault ≠ .dropped)
  | _ => true

/-- The commits of `w₂` that are not in `w₁` yet. -/
def commitsSince (w₁ w₂ : World ρ ι Op Blob) : List (ι × Op × Int) :=
  (commits w₂.server).drop (commits w₁.server).length

/-- The call returned and its burn had gone through. -/
def HubAnswer.burned : HubAnswer Blob → Bool
  | .enrolled (.issued _ _) => true
  | .stored (.mutated (.committed _ _)) => true
  | _ => false

variable {w₁ w₂ : World ρ ι Op Blob}

theorem commitsSince_eq (h : newer ++ w₁.server = w₂.server) :
    commitsSince w₁ w₂ = commits newer := by
  unfold commitsSince
  rw [← h, commits_append, drop_left]

theorem not_dropped (i : ι) :
    ¬ Dropped (fun (_ : ι) o e (_ : World ρ ι Op Blob) => tellsUpdates o e = true) i := by
  rintro ⟨sec, m, t, e, w, hC, hf⟩
  simp [tellsUpdates, hf] at hC

variable {at_ t : Int} {i : ι} {serial : String}

theorem mem_burners {cs : List (ι × Op × Int)}
    (h : (i, .burnEnrollment kid serial at_, t) ∈ cs) : i ∈ burners kid cs :=
  mem_map.mpr ⟨_, mem_filter.mpr ⟨h, by simp [Op.burns]⟩, rfl⟩

include hsem in
theorem usable_of_commit (hc : Chain S start s)
    (h : (i, .burnEnrollment kid serial at_, t) ∈ commits s) :
    ∃ newer v old older st r, s = newer ++ v :: old :: older ∧
      v.note = some (i, .burnEnrollment kid serial at_, t) ∧
      decode S.json (S.document old.secret) = .ok st ∧ st.keys.lookup kid = some r ∧
      r.key.revoked = false ∧ r.key.expired (whenOf at_ t) = false := by
  obtain ⟨v, hv, hnote⟩ := mem_filterMap.mp h
  obtain ⟨newer, rest, hs⟩ := append_of_mem (mem_reverse.mp hv)
  obtain ⟨old, older, _, rfl, ⟨st, a, hst, ha, _, _⟩, _⟩ := hc.commit_of_note hs hnote
  rw [hsem] at ha
  obtain ⟨r, _, hr, huse, _⟩ := grantOf_burned ha
  obtain ⟨hrev, hexp⟩ := (Key.usable_iff r.key _).mp huse
  exact ⟨newer, v, old, older, st, r, hs, hnote, hst, hr, hrev, hexp⟩

variable [DecidableEq ι] {calls : ι → HubRequest ρ} {I : World ρ ι Op Blob → Prop}
  {m : Op} {w₀ : World ρ ι Op Blob}

/-- A call that committed and has returned returned success. -/
theorem burned_of_commit {x : HubAnswer Blob} (hg : Good S (hubPlan start calls) w)
    (hp : HubPromise S (hubPlan start calls) I (fun _ o e _ => tellsUpdates o e = true) i w₀
      (calls i) x w) (hmem : (m, t) ∈ commitsOf i w) : x.burned = true := by
  have hne : commitsOf i w ≠ [] := ne_nil_of_mem hmem
  have hcarries := hg.carried i m t hmem
  cases hq : calls i with
  | enroll r q =>
    rw [hq] at hp
    cases x with
    | stored x => cases hp
    | enrolled x =>
      cases x with
      | issued kid serial => rfl
      | _ => exact absurd hp (not_or.mpr ⟨hne, not_dropped i⟩)
  | store q =>
    rw [hq] at hp
    simp only [hubPlan, hq] at hcarries
    cases q with
    | mutate r m =>
      cases x with
      | enrolled x => cases hp
      | stored x =>
        cases x with
        | mutated x =>
          cases x with
          | committed b sec => rfl
          | updateFailed e =>
            rcases hp with h | ⟨sec, t, e, v, hC, hf⟩
            · exact absurd h hne
            · exact absurd ⟨sec, m, t, e, v, hC, hf⟩ (not_dropped i)
          | refused | unchanged => exact absurd hp.1 hne
          | _ => exact absurd hp hne
        | _ => cases hp
    | _ => exact absurd hcarries not_false

/-- A commit is new if the call had committed nothing before. -/
theorem mem_commitsSince (h : newer ++ w₁.server = w₂.server) (h₁ : commitsOf i w₁ = [])
    (h₂ : commitsOf i w₂ = [(m, t)]) : (i, m, t) ∈ commitsSince w₁ w₂ := by
  have hmem : (i, m, t) ∈ commits w₂.server := by
    rw [mem_commits, h₂]
    exact mem_singleton_self _
  rw [commitsSince_eq h]
  rw [← h, commits_append] at hmem
  rcases mem_append.mp hmem with hold | hnew
  · rw [mem_commits, h₁] at hold
    cases hold
  · exact hnew

/-- The call returned success for a burn of the token, as an enrollment or as a
call of the store. -/
def Succeeded (calls : ι → HubRequest ρ) (kid : String)
    (c : Conf (@Ans ρ Op Blob) ι (World ρ ι Op Blob) (HubAnswer Blob)) (i : ι) : Prop :=
  (∃ serial, c.thread i = .done (.enrolled (.issued kid serial))) ∨
    ∃ r serial at_ b sec, calls i = .store (.mutate r (.burnEnrollment kid serial at_)) ∧
      c.thread i = .done (.stored (.mutated (.committed b sec)))

variable {C : ι → Op ρ Op Blob → Env → World ρ ι Op Blob → Prop}
  {plan : Plan ι Op Blob}

theorem enrolled_of_issued {q : HubRequest ρ}
    (hp : HubPromise S plan I C i w₀ q (.enrolled (.issued kid serial)) w) :
    ∃ r e, q = .enroll r e ∧ Enrolled S C i e (.issued kid serial) w := by
  cases q with
  | enroll r e => exact ⟨r, e, rfl, hp⟩
  | store q => cases hp

theorem commit_of_succeeded {c : Conf (@Ans ρ Op Blob) ι (World ρ ι Op Blob) (HubAnswer Blob)}
    (hp : ∀ x, c.thread i = .done x → HubPromise S plan I C i w₀ (calls i) x c.shared)
    (h : Succeeded calls kid c i) :
    ∃ serial at_ t, commitsOf i c.shared = [(.burnEnrollment kid serial at_, t)] := by
  rcases h with ⟨serial, hd⟩ | ⟨r, serial, at_, b, sec, hq, hd⟩
  · obtain ⟨_, _, _, _, _, at_, t, _, _, _, hcom⟩ := enrolled_of_issued (hp _ hd)
    exact ⟨serial, at_, t, hcom⟩
  have hmut := hp _ hd
  rw [hq] at hmut
  obtain ⟨_, t, _, hcom⟩ := hmut
  exact ⟨serial, at_, t, hcom⟩

/-- As long as no new record takes the place of that of `kid`, the calls that redeem the token stay
within its grant, and the record counts each of them once. A certificate goes out only for a burn
that replaced a document in which the record was neither revoked nor expired. -/
theorem certificates_stay_within_the_grant [DecidableEq ρ] (S : Setup ρ Op Reply Blob)
    (hsem : ∀ m now s, S.sem m now s = m.apply now s) (hj : S.json.Lawful)
    (start : Option (Secret Blob)) (hv : Versioned start) (calls : ι → HubRequest ρ)
    (ls₁ ls₂ : List (ι × Env))
    (c₁ c₂ : Conf (@Ans ρ Op Blob) ι (World ρ ι Op Blob) (HubAnswer Blob))
    (hr₁ : run (machine S) (hubSystem S start calls) ls₁ = some c₁)
    (hr₂ : run (machine S) c₁ ls₂ = some c₂)
    (htold : Meets (machine S) (fun _ o e _ => tellsUpdates o e = true) (hubSystem S start calls)
      (ls₁ ++ ls₂))
    (kid : String) (g : EnrollmentGrant) (hg : grantAt S kid c₁.shared.server = some g)
    (hlife : ∀ c ∈ commitsSince c₁.shared c₂.shared, c.2.1.mints kid = false) :
    (∀ is : List ι, is.Nodup → (∀ i ∈ is, Succeeded calls kid c₂ i ∧ commitsOf i c₁.shared = []) →
      (g.reusable = false → is.length ≤ 1) ∧
      (g.reusable = true → 0 < g.maxRedemptions → 0 ≤ g.redemptions →
        (is.length : Int) ≤ g.maxRedemptions)) ∧
    (∀ g', grantAt S kid c₂.shared.server = some g' → g'.redemptions =
      g.redemptions + (burners kid (commitsSince c₁.shared c₂.shared)).length) ∧
    (burners kid (commitsSince c₁.shared c₂.shared)).Nodup ∧
    (∀ i ∈ burners kid (commitsSince c₁.shared c₂.shared), ∀ x, c₂.thread i = .done x →
      x.burned = true) ∧
    (∀ i, Succeeded calls kid c₂ i → commitsOf i c₁.shared = [] →
      i ∈ burners kid (commitsSince c₁.shared c₂.shared)) ∧
    ∀ i r q kid' serial, calls i = .enroll r q →
      c₂.thread i = .done (.enrolled (.issued kid' serial)) →
      (StartFiled S start → q.principal = some kid') ∧
      ∃ newer v old older st rec at_ t, c₂.shared.server = newer ++ v :: old :: older ∧
        v.note = some (i, .burnEnrollment kid' serial at_, t) ∧
        decode S.json (S.document old.secret) = .ok st ∧ st.keys.lookup kid' = some rec ∧
        rec.key.revoked = false ∧ rec.key.expired (whenOf at_ t) = false := by
  obtain ⟨hgood, hdone⟩ := hubPromise_of_run hsem hv htold (run_append.mpr ⟨c₁, hr₁, hr₂⟩)
  obtain ⟨newer, hnewer⟩ := server_of_run hr₂
  have hsince := commitsSince_eq hnewer
  have hchain : Chain S start (newer ++ c₁.shared.server) := by
    rw [hnewer]
    exact hgood.chain
  have hcount : Redeemed g (burners kid (commits newer)).length
      (grantAt S kid c₂.shared.server) := by
    rw [← hnewer]
    exact redeemed_of_chain hj hsem hchain hg fun c hc => hlife c (hsince ▸ hc)
  have hnodup : (burners kid (commits newer)).Nodup := by
    have hall : ((commits c₂.shared.server).map Prod.fst).Nodup := by
      rw [nodup_iff_count_le_one]
      intro i
      rw [count_commits]
      exact hgood.once i
    rw [← hnewer, commits_append, map_append] at hall
    exact (filter_sublist.map Prod.fst).nodup (nodup_append.mp hall).2.1
  have hmem : ∀ i, Succeeded calls kid c₂ i → commitsOf i c₁.shared = [] →
      i ∈ burners kid (commits newer) := by
    intro i hi hfresh
    obtain ⟨serial, at_, t, hcom⟩ := commit_of_succeeded (hdone i) hi
    rw [← hsince]
    exact mem_burners (mem_commitsSince hnewer hfresh hcom)
  rw [hsince]
  refine ⟨fun is his hall => ?_, fun g' hg' => (hcount.counted g' hg').1, hnodup, ?_, hmem, ?_⟩
  · have hle : is.length ≤ (burners kid (commits newer)).length :=
      (his.subperm fun i hi => hmem i (hall i hi).1 (hall i hi).2).length_le
    refine ⟨fun hr => hle.trans (hcount.once hr), fun hr hmax hred => ?_⟩
    have hcap := hcount.capped hr hmax
    omega
  · intro i hi x hx
    obtain ⟨⟨j, m, t⟩, hc, rfl⟩ := mem_map.mp hi
    have hc' : (j, m, t) ∈ commits c₂.shared.server := by
      rw [← hnewer, commits_append]
      exact mem_append_right _ (mem_filter.mp hc).1
    exact burned_of_commit hgood (hdone j x hx) ((mem_commits _ j m t).mp hc')
  · intro i r q kid' serial hq hd
    obtain ⟨r', q', hq', pkid, key, at_, t, hprin, hheld, hkid, hcom⟩ :=
      enrolled_of_issued (hdone i _ hd)
    rw [hq] at hq'
    cases hq'
    refine ⟨fun hfiled => ?_, ?_⟩
    · rw [hprin, ← hkid, hheld.kid_eq hj hsem hfiled hgood.chain]
    have hin : (i, .burnEnrollment kid' serial at_, t) ∈ commits c₂.shared.server := by
      rw [mem_commits, hcom]
      exact mem_singleton_self _
    obtain ⟨newer', v, old, older, st, rec, h⟩ := usable_of_commit hsem hgood.chain hin
    exact ⟨newer', v, old, older, st, rec, at_, t, h⟩

/-- A Secret whose document holds one single-use token. -/
def oneToken : Secret State :=
  { resourceVersion := 1
    data := Finmap.insert "state.json" (putRecord (installKey "b" "prod") newState) ∅
    labels := ∅, annotations := ∅ }

/-- Each replica gets a request that presents the token. -/
def redeemers (b : Bool) : HubRequest Bool :=
  .enroll b { principal := some "b", csr := true, issue := fun _ => .ok (if b then "2" else "1") }

/-- Both requests come as far as the update, one wins it, and the other one
finds the token used. -/
def redemptionRace : List (Bool × Env) :=
  steps (List.replicate 10 false ++ List.replicate 10 true ++ List.replicate 2 false ++
    List.replicate 6 true)

theorem certificates_stay_within_the_grant_in_a_race :
    ∃ c₂, run (machine twoReplicas) (hubSystem twoReplicas (some oneToken) redeemers)
        redemptionRace = some c₂ ∧
      c₂.thread false = .done (.enrolled (.issued "b" "1")) ∧
      c₂.thread true = .done (.enrolled .replay) ∧
      ∀ is : List Bool, is.Nodup → (∀ i ∈ is, Succeeded redeemers "b" c₂ i) → is.length ≤ 1 := by
  refine ⟨_, rfl, rfl, rfl, fun is his hall => ?_⟩
  have hlaw := certificates_stay_within_the_grant twoReplicas (fun _ _ _ => rfl) plainJson_lawful
    (some oneToken) (by rintro _ ⟨⟩; decide) redeemers [] redemptionRace _ _ rfl rfl (by decide)
    "b" _ rfl (by decide)
  exact (hlaw.1 is his fun i hi => ⟨hall i hi, by cases i <;> rfl⟩).1 rfl

end hubapi

end prom_fleet
