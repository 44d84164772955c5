-- The laws of a prune: it changes no decision. No key that is dropped could authenticate or
-- be redeemed, no dropped entry could refuse a certificate within the retention, and the
-- record that decides the labels of a cluster stays. A second prune finds nothing to do.
import PromFleet.EpochLaws

namespace prom_fleet.hub

open fleet map_range store

/-! ## The labels that the hub reads -/

/-- The record may decide the labels of the cluster. -/
def labels (clusterID : String) (k : Key) : Bool :=
  match k.enrollment with
  | none => false
  | some g => decide (g.clusterID = clusterID) && !k.revoked

/-- The loop of `hub.enrollmentLabels`: the most recently created key wins. -/
def newestFor (clusterID : String) (keys : List Key) : Option Key :=
  keys.foldl
    (fun newest k =>
      if labels clusterID k then
        match newest with
        | none => some k
        | some n => if k.createdAt > n.createdAt then some k else newest
      else newest)
    none

/-- `hub.enrollmentLabels` of a hub whose store holds the document. -/
def enrollmentLabels (r : Range String KeyRecord) (clusterID : String) (s : State) :
    Option (StrMap String) :=
  if clusterID = "" then none
  else
    match newestFor clusterID (listKeys r .enrollment s) with
    | none => none
    | some k => k.enrollment.map fun g => g.labels

end prom_fleet.hub

namespace prom_fleet.store

open fleet map_range hub

/-! ## Records under their own KID -/

/-- Each record is filed under the KID of its key. -/
def Filed (s : State) : Prop := ∀ kid r, s.keys.lookup kid = some r → r.key.kid = kid

theorem filed_newState : Filed newState := by
  intro kid r h
  simp [newState] at h

variable {kid : String} {r : KeyRecord} {s s' : State}

theorem filed_insert (h : Filed s) (hr : r.key.kid = kid) (hs : s'.keys = s.keys.insert kid r) :
    Filed s' := by
  intro kid' r' h'
  rw [hs] at h'
  obtain ⟨rfl, rfl⟩ | ⟨_, hold⟩ := lookup_insert_cases h'
  · exact hr
  · exact h kid' r' hold

theorem filed_congr (h : Filed s) (hs : s'.keys = s.keys) : Filed s' := by
  intro kid r hr
  rw [hs] at hr
  exact h kid r hr

theorem lookup_of_erase {V : Type} {m : StrMap V} {gone : String} {v : V}
    (h : (m.erase gone).lookup kid = some v) : m.lookup kid = some v := by
  by_cases hk : kid = gone
  · subst hk
    rw [Finmap.lookup_erase] at h
    cases h
  · rwa [Finmap.lookup_erase_ne hk] at h

theorem filed_erase (h : Filed s) (hs : s'.keys = s.keys.erase kid) : Filed s' := by
  intro kid' r hr
  rw [hs] at hr
  exact h kid' r (lookup_of_erase hr)

section Pruned

variable {o : PruneOrder} {now retain : Int} {s : State} {a : Applied PruneResult}

theorem lookup_of_prune (h : prune o now retain s = .ok a)
    (hr : a.state.keys.lookup kid = some r) : s.keys.lookup kid = some r := by
  obtain ⟨_, _, hkeys, _⟩ := prune_cases h
  rw [hkeys kid, Option.filter_eq_some_iff] at hr
  exact hr.1

theorem filed_prune (hf : Filed s) (h : prune o now retain s = .ok a) : Filed a.state :=
  fun kid r hr => hf kid r (lookup_of_prune h hr)

end Pruned

theorem filed_apply {m : Op} {now : Int} (hf : Filed s) (h : Effect now s m s') : Filed s' := by
  cases h with
  | same => exact hf
  | @putKey k _ => exact filed_insert hf (r := recordOf k) rfl rfl
  | @putKeyIfNoUsable k => exact filed_insert hf (r := recordOf k) rfl rfl
  | @revokeKey kid reason at_ r hr =>
    exact filed_insert hf (r := r.revoke (whenOf at_ now) reason) (hf kid r hr) rfl
  | @replaceKey k oldKID reason at_ old _ hold =>
    have hput : Filed (putRecord k s) := filed_insert hf (r := recordOf k) rfl rfl
    exact filed_insert hput (r := old.revoke (whenOf at_ now) reason) (hf oldKID old hold) rfl
  | deleteKey => exact filed_erase hf rfl
  | @touchKey kid at_ r hr =>
    exact filed_insert hf (r := r.touch (whenOf at_ now)) (hf kid r hr) rfl
  | @burnEnrollment kid _ _ r g hr =>
    exact filed_insert hf (r := r.regrant (EnrollmentGrant.redeemed g _ _)) (hf kid r hr) rfl
  | revokeCert => exact filed_congr hf rfl
  | prune hb => exact filed_prune hf hb

theorem filed_after (hf : Filed s) (e : Event) : Filed (after s e) := by
  unfold after
  split
  · rename_i a h
    exact filed_apply hf (apply_effect h)
  · exact hf

theorem filed_runEvents (hf : Filed s) (es : List Event) : Filed (runEvents s es) := by
  induction es generalizing s with
  | nil => exact hf
  | cons e es ih => exact ih (filed_after hf e)

/-! ## The leader of a cluster -/

/-- The record under `kid` may decide the labels of the cluster, and no other
such record takes its place. -/
def Leader (s : State) (clusterID kid : String) : Prop :=
  ∃ r, s.keys.lookup kid = some r ∧ labelCluster r.key = some clusterID ∧
    ∀ kid' r', s.keys.lookup kid' = some r' → labelCluster r'.key = some clusterID →
      supersedes r'.key r.key = false

theorem supersedes_eq_true (k cur : Key) : supersedes k cur = true ↔
      cur.createdAt < k.createdAt ∨ k.createdAt = cur.createdAt ∧ k.kid < cur.kid := by
  simp [supersedes]

theorem supersedes_eq_false (k cur : Key) : supersedes k cur = false ↔
      k.createdAt ≤ cur.createdAt ∧ (k.createdAt = cur.createdAt → cur.kid ≤ k.kid) := by
  rw [← Bool.not_eq_true, supersedes_eq_true]
  push Not
  rfl

theorem ranks_supersedes : Ranks supersedes := by
  refine ⟨fun a => ?_, fun a b c hab hcb => ?_⟩
  · rw [supersedes_eq_false]
    exact ⟨le_refl _, fun _ => le_refl _⟩
  rw [supersedes_eq_false] at hab ⊢
  rw [supersedes_eq_true] at hcb
  rcases hcb with hlt | ⟨heq, hkid⟩
  · exact ⟨by omega, fun h => by omega⟩
  · exact ⟨by omega, fun h => le_trans (le_of_lt hkid) (hab.2 (by omega))⟩

theorem newestRecords_leads (r : Range String KeyRecord) (hf : Filed s) (clusterID : String) :
    (∀ k, (newestRecords r s).lookup clusterID = some k → Leader s clusterID k.kid) ∧
      ((newestRecords r s).lookup clusterID = none →
        ∀ kid rec, s.keys.lookup kid = some rec → labelCluster rec.key ≠ some clusterID) := by
  have hlead : Leads labelCluster supersedes ((r.list s.keys).map fun e => e.2.key)
      (newestRecords r s) := leads_bestOf ranks_supersedes _
  have hmem : ∀ kid rec, s.keys.lookup kid = some rec →
      rec.key ∈ (r.list s.keys).map fun e => e.2.key := by
    intro kid rec h
    exact List.mem_map.mpr ⟨⟨kid, rec⟩, (r.mem_list s.keys).mpr h, rfl⟩
  refine ⟨fun k hk => ?_, fun hn kid rec h => hlead.2 clusterID hn rec.key (hmem kid rec h)⟩
  obtain ⟨hin, hc, hbest⟩ := hlead.1 clusterID k hk
  obtain ⟨⟨kid, rec⟩, he, rfl⟩ := List.mem_map.mp hin
  have hrec := (r.mem_list s.keys).mp he
  refine ⟨rec, ?_, hc, fun kid' rec' h' hc' => hbest rec'.key (hmem kid' rec' h') hc'⟩
  rw [hf kid rec hrec]
  exact hrec

variable {clusterID : String}

theorem exists_leader (hf : Filed s) (h : s.keys.lookup kid = some r)
    (hc : labelCluster r.key = some clusterID) : ∃ kid', Leader s clusterID kid' := by
  obtain ⟨h1, h2⟩ := newestRecords_leads ascending hf clusterID
  cases hn : (newestRecords ascending s).lookup clusterID with
  | none => exact absurd hc (h2 hn kid r h)
  | some k => exact ⟨k.kid, h1 k hn⟩

theorem leader_unique (hf : Filed s) {kid' : String} (h : Leader s clusterID kid)
    (h' : Leader s clusterID kid') : kid = kid' := by
  obtain ⟨r, hr, hc, hbest⟩ := h
  obtain ⟨r', hr', hc', hbest'⟩ := h'
  have h1 := (supersedes_eq_false _ _).mp (hbest kid' r' hr' hc')
  have h2 := (supersedes_eq_false _ _).mp (hbest' kid r hr hc)
  have heq : r'.key.createdAt = r.key.createdAt := le_antisymm h1.1 h2.1
  rw [← hf kid r hr, ← hf kid' r' hr']
  exact le_antisymm (h1.2 heq) (h2.2 heq.symm)

theorem mem_labelAuthorities (o : PruneOrder) (hf : Filed s) (kid : String) :
    kid ∈ labelAuthorities o s ↔ ∃ clusterID, Leader s clusterID kid := by
  unfold labelAuthorities
  rw [List.mem_map]
  constructor
  · rintro ⟨⟨c, k⟩, he, rfl⟩
    exact ⟨c, (newestRecords_leads o.scan hf c).1 k ((o.newest.mem_list _).mp he)⟩
  rintro ⟨c, hlead⟩
  have ⟨r, hr, hc, _⟩ := hlead
  cases hn : (newestRecords o.scan s).lookup c with
  | none => exact absurd hc ((newestRecords_leads o.scan hf c).2 hn kid r hr)
  | some k =>
    have hk := (newestRecords_leads o.scan hf c).1 k hn
    exact ⟨⟨c, k⟩, (o.newest.mem_list _).mpr hn, leader_unique hf hk hlead⟩

/-! ## What a prune does to the leaders -/

section Pruned

variable {o : PruneOrder} {now retain : Int} {s : State} {a : Applied PruneResult} {c kid : String}

variable (hf : Filed s) (h : prune o now retain s = .ok a)

include hf h

theorem lookup_prune_leader (hl : Leader s c kid) :
    a.state.keys.lookup kid = s.keys.lookup kid := by
  obtain ⟨_, _, hkeys, _⟩ := prune_cases h
  rw [hkeys kid]
  have hauth : kid ∈ labelAuthorities o s := (mem_labelAuthorities o hf kid).mpr ⟨c, hl⟩
  cases s.keys.lookup kid with
  | none => rfl
  | some r => simp [Option.filter, hauth]

theorem leader_prune_of_leader (hl : Leader s c kid) : Leader a.state c kid := by
  have hkept := lookup_prune_leader hf h hl
  obtain ⟨r, hr, hc, hbest⟩ := hl
  refine ⟨r, by rw [hkept, hr], hc, fun kid' r' hr' hc' => ?_⟩
  exact hbest kid' r' (lookup_of_prune h hr') hc'

/-- A prune keeps the leader of each cluster, and it makes no new one. -/
theorem leader_prune (c kid : String) :
    Leader a.state c kid ↔ Leader s c kid := by
  refine ⟨fun hl => ?_, leader_prune_of_leader hf h⟩
  have ⟨r, hr, hc, _⟩ := hl
  obtain ⟨kid', hl'⟩ := exists_leader hf (lookup_of_prune h hr) hc
  have heq := leader_unique (filed_prune hf h) hl (leader_prune_of_leader hf h hl')
  rw [heq]
  exact hl'

theorem prune_prune (o' : PruneOrder) :
    prune o' now retain a.state =
      .ok { changed := false, state := a.state, result := { keys := 0, revokedCerts := 0 } } := by
  obtain ⟨hr, _, hkeys, hcerts⟩ := prune_cases h
  have hcert : ∀ serial rc, a.state.revokedCerts.lookup serial = some rc →
      certLapsed now retain rc = false := by
    intro serial rc hrc
    rw [hcerts serial, Option.filter_eq_some_iff] at hrc
    simpa using hrc.2
  have hkey : ∀ kid r, a.state.keys.lookup kid = some r →
      (keyLapsed now retain r && !decide (kid ∈ labelAuthorities o' a.state)) = false := by
    intro kid r hkr
    rw [hkeys kid, Option.filter_eq_some_iff] at hkr
    have hauth : kid ∈ labelAuthorities o' a.state ↔ kid ∈ labelAuthorities o s := by
      rw [mem_labelAuthorities o' (filed_prune hf h), mem_labelAuthorities o hf]
      exact exists_congr fun c => leader_prune hf h c kid
    rw [decide_eq_decide.mpr hauth, ← Bool.not_eq_true']
    exact hkr.2
  have hcount := (sweep_count_eq_zero o'.certs (fun _ rc => certLapsed now retain rc)
    a.state.revokedCerts).mpr hcert
  have hcountk := (sweep_count_eq_zero o'.keys (fun kid r => keyLapsed now retain r &&
    !decide (kid ∈ labelAuthorities o' a.state)) a.state.keys).mpr hkey
  have hsame := sweep_of_keep o'.certs (fun _ rc => certLapsed now retain rc)
    a.state.revokedCerts hcert
  have hsamek := sweep_of_keep o'.keys (fun kid r => keyLapsed now retain r &&
    !decide (kid ∈ labelAuthorities o' a.state)) a.state.keys hkey
  unfold prune
  rw [if_neg (by omega)]
  simp only [hcount, hcountk, hsame, hsamek]
  rfl

end Pruned

/-! ## The scan of the listed keys -/

theorem mem_listKeys (r : Range String KeyRecord) {cls : KeyClass} (hnamed : cls ≠ .unknown "")
    (s : State) (k : Key) : k ∈ listKeys r cls s ↔
      ∃ kid rec, s.keys.lookup kid = some rec ∧ rec.key.cls = cls ∧ rec.value = k := by
  unfold listKeys
  rw [List.mem_insertionSort, List.mem_map]
  constructor
  · rintro ⟨⟨kid, rec⟩, he, rfl⟩
    rw [List.mem_filter] at he
    exact ⟨kid, rec, (r.mem_list s.keys).mp he.1, by simpa [hnamed] using he.2, rfl⟩
  · rintro ⟨kid, rec, hrec, hcls, rfl⟩
    refine ⟨⟨kid, rec⟩, List.mem_filter.mpr ⟨(r.mem_list s.keys).mpr hrec, ?_⟩, rfl⟩
    simp [hcls]

instance : Std.Total listsBefore where
  total a b := by
    rcases lt_trichotomy a.createdAt b.createdAt with h | h | h
    · exact .inl (.inl h)
    · exact (le_total a.kid b.kid).imp (fun hk => .inr ⟨h, hk⟩) fun hk => .inr ⟨h.symm, hk⟩
    · exact .inr (.inl h)

instance : IsTrans Key listsBefore where
  trans a b c hab hbc := by
    rcases hab with h | ⟨h, hk⟩
    · rcases hbc with h' | ⟨h', _⟩
      · exact .inl (by omega)
      · exact .inl (by omega)
    · rcases hbc with h' | ⟨h', hk'⟩
      · exact .inl (by omega)
      · exact .inr ⟨by omega, le_trans hk hk'⟩

theorem pairwise_listKeys (r : Range String KeyRecord) (cls : KeyClass) (s : State) :
    (listKeys r cls s).Pairwise listsBefore := List.pairwise_insertionSort _ _

/-- What the scan of a sorted list has found: nothing if no key of the list may
decide the labels, and else one that no other takes the place of. -/
def Found (c : String) (l : List Key) : Option Key → Prop
  | none => ∀ k ∈ l, labels c k = false
  | some n => n ∈ l ∧ labels c n = true ∧
      ∀ k ∈ l, labels c k = true → supersedes k n = false

variable {c : String} {l : List Key}

/-- The key that is found stays so behind one more key, if that does not supersede it. -/
theorem found_concat {k n : Key} (hn : n ∈ l ++ [k]) (hln : labels c n = true)
    (hbest : ∀ x ∈ l, labels c x = true → supersedes x n = false)
    (hk : labels c k = true → supersedes k n = false) : Found c (l ++ [k]) (some n) := by
  refine ⟨hn, hln, fun x hx => ?_⟩
  rcases List.mem_append.mp hx with hx | hx
  · exact hbest x hx
  · rwa [List.mem_singleton.mp hx]

theorem found_skip {k : Key} {n : Option Key} (h : Found c l n) (hk : labels c k = false) :
    Found c (l ++ [k]) n := by
  cases n with
  | none =>
    intro x hx
    rcases List.mem_append.mp hx with hx | hx
    · exact h x hx
    · rw [List.mem_singleton.mp hx, hk]
  | some n =>
    exact found_concat (List.mem_append_left _ h.1) h.2.1 h.2.2 fun hlk => by simp [hk] at hlk

theorem found_newestFor (hs : l.Pairwise listsBefore) : Found c l (newestFor c l) := by
  induction l using List.reverseRecOn with
  | nil => intro k hk; cases hk
  | append_singleton l k ih =>
    rw [List.pairwise_append] at hs
    obtain ⟨hl, _, hlast⟩ := hs
    have ih := ih hl
    have hirrefl := ranks_supersedes.irrefl k
    have hstep : newestFor c (l ++ [k]) =
        if labels c k then
          match newestFor c l with
          | none => some k
          | some n => if k.createdAt > n.createdAt then some k else newestFor c l
        else newestFor c l := by
      unfold newestFor
      rw [List.foldl_append]
      rfl
    rw [hstep]
    by_cases hk : labels c k = true
    · rw [if_pos hk]
      cases hn : newestFor c l with
      | none =>
        rw [hn] at ih
        exact found_concat (by simp) hk (fun x hx hlx => by simp [ih x hx] at hlx) fun _ => hirrefl
      | some n =>
        rw [hn] at ih
        obtain ⟨hin, hln, hbest⟩ := ih
        simp only
        split
        · rename_i hgt
          exact found_concat (by simp) hk (fun x hx hlx => ranks_supersedes.weak x n k
            (hbest x hx hlx) ((supersedes_eq_true k n).mpr (.inl hgt))) fun _ => hirrefl
        · rename_i hgt
          refine found_concat (List.mem_append_left _ hin) hln hbest fun _ => ?_
          -- the later key is no newer, so it is listed after for its KID
          rw [supersedes_eq_false]
          rcases hlast n hin k (List.mem_singleton_self k) with hlt | ⟨heq, hkid⟩
          · exact absurd hlt (by simpa using hgt)
          · exact ⟨by omega, fun _ => hkid⟩
    · rw [if_neg hk]
      exact found_skip ih (by simpa using hk)

theorem labels_iff (c : String) (r : KeyRecord) :
    r.key.cls = .enrollment ∧ labels c r.value = true ↔ labelCluster r.key = some c := by
  have hen : r.value.enrollment = r.key.enrollment := rfl
  unfold labels labelCluster
  rw [hen, KeyRecord.value_revoked]
  by_cases hcls : r.key.cls = .enrollment
  · cases r.key.enrollment with
    | none => simp
    | some g => cases r.key.revoked <;> simp [hcls]
  · simp [hcls]

theorem newestFor_leader (r : Range String KeyRecord) (hf : Filed s) (c : String) :
    (∀ k, newestFor c (listKeys r .enrollment s) = some k →
      Leader s c k.kid ∧ ∃ rec, s.keys.lookup k.kid = some rec ∧ rec.value = k) ∧
    (newestFor c (listKeys r .enrollment s) = none → ∀ kid, ¬ Leader s c kid) := by
  have hfound := found_newestFor (c := c) (pairwise_listKeys r .enrollment s)
  have hnamed : KeyClass.enrollment ≠ .unknown "" := nofun
  refine ⟨fun k hk => ?_, fun hn kid hl => ?_⟩
  · rw [hk] at hfound
    obtain ⟨hin, hlab, hbest⟩ := hfound
    obtain ⟨kid, rec, hrec, hcls, rfl⟩ := (mem_listKeys r hnamed s k).mp hin
    have hkid : rec.value.kid = kid := hf kid rec hrec
    rw [hkid]
    refine ⟨⟨rec, hrec, (labels_iff c rec).mp ⟨hcls, hlab⟩, fun kid' rec' hrec' hc' => ?_⟩,
      rec, hrec, rfl⟩
    obtain ⟨hcls', hlab'⟩ := (labels_iff c rec').mpr hc'
    exact hbest rec'.value ((mem_listKeys r hnamed s _).mpr ⟨kid', rec', hrec', hcls', rfl⟩) hlab'
  · rw [hn] at hfound
    obtain ⟨rec, hrec, hc, _⟩ := hl
    obtain ⟨hcls, hlab⟩ := (labels_iff c rec).mpr hc
    have hno := hfound rec.value ((mem_listKeys r hnamed s _).mpr ⟨kid, rec, hrec, hcls, rfl⟩)
    rw [hlab] at hno
    cases hno

section Pruned

variable {o : PruneOrder} {now retain : Int} {s : State} {a : Applied PruneResult}

theorem enrollmentLabels_prune (hf : Filed s) (h : prune o now retain s = .ok a)
    (r r' : Range String KeyRecord) (c : String) :
    enrollmentLabels r' c a.state = enrollmentLabels r c s := by
  obtain ⟨hsome, hnone⟩ := newestFor_leader r hf c
  obtain ⟨hsome', hnone'⟩ := newestFor_leader r' (filed_prune hf h) c
  have hsame : newestFor c (listKeys r' .enrollment a.state) =
      newestFor c (listKeys r .enrollment s) := by
    cases hk : newestFor c (listKeys r .enrollment s) with
    | none =>
      cases hk' : newestFor c (listKeys r' .enrollment a.state) with
      | none => rfl
      | some k' =>
        have hl' := (leader_prune hf h c k'.kid).mp (hsome' k' hk').1
        exact absurd hl' (hnone hk k'.kid)
    | some k =>
      obtain ⟨hl, rec, hrec, rfl⟩ := hsome k hk
      have hl' := leader_prune_of_leader hf h hl
      cases hk' : newestFor c (listKeys r' .enrollment a.state) with
      | none => exact absurd hl' (hnone' hk' _)
      | some k' =>
        obtain ⟨hl'', rec', hrec', rfl⟩ := hsome' k' hk'
        rw [leader_unique (filed_prune hf h) hl'' hl'] at hrec'
        rw [lookup_of_prune h hrec'] at hrec
        cases hrec
        rfl
  unfold enrollmentLabels
  rw [hsame]

/-- The redemption goes through. -/
def Burns (kid certSerial : String) (at_ clock : Int) (s : State) : Prop :=
  ∃ b, burnEnrollment kid certSerial at_ clock s = .ok b

variable {at_ clock : Int} {certSerial kid : String}

theorem not_burns_of_expired (hr : s.keys.lookup kid = some r)
    (hx : r.key.expired (whenOf at_ clock) = true) : ¬ Burns kid certSerial at_ clock s := by
  rintro ⟨b, hb⟩
  unfold burnEnrollment at hb
  rw [hr] at hb
  simp only [Key.usable, hx] at hb
  repeat' split at hb
  all_goals simp_all

theorem not_burns_of_missing (hr : s.keys.lookup kid = none) :
    ¬ Burns kid certSerial at_ clock s := by
  rintro ⟨b, hb⟩
  unfold burnEnrollment at hb
  rw [hr] at hb
  split at hb <;> cases hb

theorem burns_congr (h : s'.keys.lookup kid = s.keys.lookup kid)
    (hb : Burns kid certSerial at_ clock s) : Burns kid certSerial at_ clock s' := by
  obtain ⟨b, hb⟩ := hb
  unfold burnEnrollment at hb
  unfold Burns burnEnrollment
  repeat' split at hb
  all_goals simp_all

theorem burns_prune (h : prune o now retain s = .ok a) (ht : now ≤ whenOf at_ clock) :
    Burns kid certSerial at_ clock a.state ↔ Burns kid certSerial at_ clock s := by
  obtain ⟨hr, _, hkeys, _⟩ := prune_cases h
  cases hl : s.keys.lookup kid with
  | none =>
    have hl' : a.state.keys.lookup kid = none := by rw [hkeys kid, hl]; rfl
    exact iff_of_false (not_burns_of_missing hl') (not_burns_of_missing hl)
  | some r =>
    cases hl' : a.state.keys.lookup kid with
    | some r' =>
      have heq := lookup_of_prune h hl'
      rw [hl] at heq
      cases heq
      exact ⟨burns_congr (hl.trans hl'.symm), burns_congr (hl'.trans hl.symm)⟩
    | none =>
      have hdrop := hl'
      rw [hkeys kid, hl, Option.filter_eq_none_iff] at hdrop
      have hlap := hdrop r rfl
      rw [Bool.not_eq_true', Bool.not_eq_false, Bool.and_eq_true] at hlap
      have hx := keyLapsed_expired hlap.1 hr ht
      exact iff_of_false (not_burns_of_missing hl') (not_burns_of_expired hl hx)

theorem revokedWith_prune (h : prune o now retain s = .ok a) {t : Int} (ht : now ≤ t)
    (serial : String) : revokedWith (fun rc => t ≤ rc.notAfter + retain) serial a.state ↔
      revokedWith (fun rc => t ≤ rc.notAfter + retain) serial s := by
  obtain ⟨_, _, _, hcerts⟩ := prune_cases h
  constructor
  · rintro ⟨rc, hrc, hl⟩
    rw [hcerts serial, Option.filter_eq_some_iff] at hrc
    exact ⟨rc, hrc.1, hl⟩
  · rintro ⟨rc, hrc, hl⟩
    refine ⟨rc, ?_, hl⟩
    rw [hcerts serial, Option.filter_eq_some_iff]
    refine ⟨hrc, ?_⟩
    have hlive : ¬ rc.notAfter + retain < now := by omega
    simp [certLapsed, hlive]

end Pruned

/-- A prune changes no authentication, no redemption and no revocation within the retention, from
its own time on. If the records are filed under their own KIDs, it keeps the labels of every cluster
too, in every order of the maps, and a second prune finds nothing. -/
theorem a_prune_changes_no_decision (o : PruneOrder) (s : State) (now retain : Int)
    (hretain : 0 ≤ retain) :
    ∃ a, prune o now retain s = .ok a ∧
      (∀ t, now ≤ t →
        (∀ kid hmac cls, authenticate kid hmac cls t a.state = authenticate kid hmac cls t s) ∧
        (∀ kid certSerial at_ clock, whenOf at_ clock = t →
          (Burns kid certSerial at_ clock a.state ↔ Burns kid certSerial at_ clock s)) ∧
        ∀ serial, revokedWith (fun rc => t ≤ rc.notAfter + retain) serial a.state ↔
          revokedWith (fun rc => t ≤ rc.notAfter + retain) serial s) ∧
      (Filed s →
        (∀ r r' clusterID, enrollmentLabels r' clusterID a.state = enrollmentLabels r clusterID s) ∧
        ∀ o', prune o' now retain a.state =
          .ok { changed := false, state := a.state,
                result := { keys := 0, revokedCerts := 0 } }) := by
  have hok : ∃ a, prune o now retain s = .ok a := by
    unfold prune
    rw [if_neg (by omega)]
    exact ⟨_, rfl⟩
  obtain ⟨a, ha⟩ := hok
  refine ⟨a, ha, fun t ht => ⟨fun kid hmac cls => ?_, fun kid certSerial at_ clock hw => ?_,
    revokedWith_prune ha ht⟩, fun hf => ⟨enrollmentLabels_prune hf ha, prune_prune hf ha⟩⟩
  · exact (prune_alike ha).keys kid hmac cls t ht
  · exact burns_prune ha (by omega)

/-- An enrollment key that expired at 20. -/
def installKey (kid clusterID : String) : Key :=
  { kid := kid, cls := .enrollment, name := kid, owner := "ops", secretHMAC := [1], scope := none,
    enrollment := some { clusterID := clusterID, labels := Finmap.insert "env" "prod" ∅,
                         usedAt := none, certSerial := "", reusable := false, redemptions := 0,
                         maxRedemptions := 0 },
    createdAt := 10, expiresAt := 20, lastUsed := none, revokedAt := none, revokedReason := "" }

def twoInstalls : State :=
  putRecord (installKey "b" "prod") (putRecord (installKey "a" "prod") newState)

/-- One of two lapsed keys goes, and the other keeps the labels of the cluster. -/
theorem a_prune_changes_no_decision_of_one_enrollment :
    ∃ a, prune ascendingOrder 100 10 twoInstalls = .ok a ∧ a.result.keys = 1 ∧
      enrollmentLabels ascending "prod" a.state = some (Finmap.insert "env" "prod" ∅) := by
  obtain ⟨a, ha, _, h⟩ := a_prune_changes_no_decision ascendingOrder twoInstalls 100 10 (by decide)
  have hfirst : Filed (putRecord (installKey "a" "prod") newState) :=
    filed_insert filed_newState (r := recordOf (installKey "a" "prod")) rfl rfl
  have hf : Filed twoInstalls := filed_insert hfirst (r := recordOf (installKey "b" "prod")) rfl rfl
  refine ⟨a, ha, ?_, ((h hf).1 ascending ascending "prod").trans (by decide)⟩
  cases ha
  decide

/-- The key of KID "b" filed under "a", and another key under "b", as only a document written by
hand can have them. -/
def misfiled : State :=
  { newState with
    keys := Finmap.insert "b" (recordOf (installKey "c" "test"))
      (Finmap.insert "a" (recordOf (installKey "b" "prod")) ∅) }

/-- The prune protects the KID in the record and not the name that it deletes by, so the labels of
the cluster go, and the next prune finds the key that this one has protected in its place. -/
theorem a_prune_drops_the_labels_of_a_misfiled_record :
    enrollmentLabels ascending "prod" misfiled = some (Finmap.insert "env" "prod" ∅) ∧
      ∃ a, prune ascendingOrder 100 10 misfiled = .ok a ∧
        enrollmentLabels ascending "prod" a.state = none ∧
        ∃ a', prune ascendingOrder 100 10 a.state = .ok a' ∧ a'.result.keys = 1 :=
  ⟨by decide, _, rfl, by decide, _, rfl, by decide⟩

end prom_fleet.store
