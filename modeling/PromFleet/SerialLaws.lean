-- The law of the compare-and-swap: whatever the interleaving, the persisted document is the
-- fold of the committed mutations in the order of their commits. None is lost, none counts
-- twice, a refused call counts not at all, and the rest of the Secret is carried along.
import PromFleet.StoreSystem

namespace prom_fleet.secretstore

open interleave kube store List Finmap

variable {ρ ι μ β Blob : Type}

/-! ## The fold -/

variable (s : List (Version Blob (Note ι μ)))

/-- The calls that committed, with their mutations and readings of the clock,
in the order of their commits. -/
def commits : List (ι × μ × Int) :=
  s.reverse.filterMap fun v => v.note

variable (S : Setup ρ μ β Blob)

/-- The document that a mutation makes of a document. -/
def nextDocument (doc : Option Blob) (c : ι × μ × Int) :
    Except store.Err (Option Blob) := do
  let st ← decode S.json doc
  let a ← S.sem c.2.1 c.2.2 st
  return some (encode S.json a.state)

/-- The Secret as the run found it, or as the first call created it. -/
def FirstVersion (start : Option (Secret Blob)) (base : Secret Blob) :
    Prop :=
  start = some base ∨ start = none ∧ ∃ r rv, base = { S.empty r with resourceVersion := rv }

/-- All but the document is the same in the two Secrets. -/
def CarriesOver (base sec : Secret Blob) : Prop :=
  sec.data.erase S.key = base.data.erase S.key ∧ sec.labels = base.labels ∧
    sec.annotations = base.annotations

theorem commits_push (v : Version Blob (Note ι μ)) (s : List (Version Blob (Note ι μ))) :
    commits (v :: s) = commits s ++ v.note.toList := by
  unfold commits
  rw [reverse_cons, filterMap_append]
  cases hv : v.note <;> simp [hv]

variable {S : Setup ρ μ β Blob} {m : μ} {sec sec' : Secret Blob} {t : Int}

theorem nextDocument_proposal (i : ι) (h : Proposal S sec m t sec') :
    nextDocument S (S.document sec) (i, m, t) = .ok (S.document sec') ∧ CarriesOver S sec sec' := by
  obtain ⟨st, a, hst, ha, _, rfl⟩ := h
  refine ⟨?_, ?_, rfl, rfl⟩
  · have hdoc : S.document { sec with data := sec.data.insert S.key (encode S.json a.state) } =
        some (encode S.json a.state) := lookup_insert _
    rw [hdoc]
    unfold nextDocument
    rw [hst]
    change (S.sem m t st >>= fun a => pure (some (encode S.json a.state))) = _
    rw [ha]
    rfl
  · apply ext_lookup
    intro k
    by_cases hk : k = S.key
    · subst hk
      simp only [lookup_erase]
    · simp only [lookup_erase_ne hk, lookup_insert_of_ne _ hk]

theorem CarriesOver.trans {a b c : Secret Blob} (h : CarriesOver S a b) (h' : CarriesOver S b c) :
    CarriesOver S a c :=
  ⟨h'.1.trans h.1, h'.2.1.trans h.2.1, h'.2.2.trans h.2.2⟩

/-- The documents on the two sides of a commit, as a replica decodes them. -/
theorem Proposal.decodes (hj : S.json.Lawful) (h : Proposal S sec m t sec') :
    ∃ st a st', decode S.json (S.document sec) = .ok st ∧ S.sem m t st = .ok a ∧
      a.changed = true ∧ decode S.json (S.document sec') = .ok st' ∧ st'.epoch = a.state.epoch ∧
      st'.revokedCerts = a.state.revokedCerts ∧
      ∀ kid, (st'.keys.lookup kid).map KeyRecord.wire =
        (a.state.keys.lookup kid).map KeyRecord.wire := by
  obtain ⟨st, a, hst, ha, hch, rfl⟩ := h
  obtain ⟨st', hst', hrest⟩ := decode_encode S.json hj a.state
  refine ⟨st, a, st', hst, ha, hch, ?_, hrest⟩
  have hdoc : S.document { sec with data := sec.data.insert S.key (encode S.json a.state) } =
      some (encode S.json a.state) := lookup_insert _
  rw [hdoc]
  exact hst'

section Chain

variable {S : Setup ρ μ β Blob} {start : Option (Secret Blob)} {s : List (Version Blob (Note ι μ))}
  {older : List (Version Blob (Note ι μ))} {v : Version Blob (Note ι μ)}

/-- A version of a chain is the first one, or it was made from the one before it. -/
theorem Chain.suffix_cases (h : Chain S start s) (hs : v :: older <:+ s) :
    v.note = none ∧ older = [] ∨
      ∃ i m t old rest sec, v.note = some (i, m, t) ∧ older = old :: rest ∧
        Proposal S old.secret m t sec ∧ S.document v.secret = S.document sec := by
  induction h with
  | absent h => simp at hs
  | @given sec h =>
    rcases suffix_cons_iff.mp hs with heq | hs
    · cases heq
      exact .inl ⟨rfl, rfl⟩
    · simp at hs
  | @created r rv h =>
    rcases suffix_cons_iff.mp hs with heq | hs
    · cases heq
      exact .inl ⟨rfl, rfl⟩
    · simp at hs
  | @commit v' vs i m t sec rv _ hp ih =>
    rcases suffix_cons_iff.mp hs with heq | hs
    · cases heq
      exact .inr ⟨i, m, t, v', vs, sec, rfl, rfl, hp, rfl⟩
    · exact ih hs

theorem Chain.commit_of_note {newer : List (Version Blob (Note ι μ))} {i : ι}
    (h : Chain S start s) (hs : s = newer ++ v :: older) (hv : v.note = some (i, m, t)) :
    ∃ old rest sec, older = old :: rest ∧ Proposal S old.secret m t sec ∧
      S.document v.secret = S.document sec := by
  rcases h.suffix_cases ⟨newer, hs.symm⟩ with
    ⟨hnone, _⟩ | ⟨i', m', t', old, rest, sec, hnote, hold, hp, hdoc⟩
  · rw [hv] at hnone
    cases hnone
  · rw [hv] at hnote
    cases hnote
    exact ⟨old, rest, sec, hold, hp, hdoc⟩

variable {P : State → Prop}

/-- What holds of the first document, and what no mutation takes away, holds of
every document of a chain. -/
theorem Chain.forall_docs (hj : S.json.Lawful) (h : Chain S start s)
    (hstart : ∀ sec st, start = some sec → decode S.json (S.document sec) = .ok st → P st)
    (hnew : P newState) (hstep : ∀ m t st a, P st → S.sem m t st = .ok a → P a.state)
    (hwire : ∀ st st', P st → st'.revokedCerts = st.revokedCerts →
      (∀ kid, (st'.keys.lookup kid).map KeyRecord.wire =
        (st.keys.lookup kid).map KeyRecord.wire) → P st') :
    ∀ v ∈ s, ∀ st, decode S.json (S.document v.secret) = .ok st → P st := by
  induction h with
  | absent h => exact fun v hv => absurd hv not_mem_nil
  | @given sec h =>
    intro v hv st hst
    obtain rfl := mem_singleton.mp hv
    exact hstart sec st h hst
  | @created r rv h =>
    intro v hv st hst
    obtain rfl := mem_singleton.mp hv
    have hdoc : S.document { S.empty r with resourceVersion := rv } =
        some (encode S.json newState) := lookup_insert _
    obtain ⟨st', hst', _, hcerts, hkeys⟩ := decode_encode S.json hj newState
    rw [hdoc, hst'] at hst
    cases hst
    exact hwire _ _ hnew hcerts hkeys
  | @commit v' vs i m t sec rv _ hp ih =>
    intro v hv st hst
    rcases mem_cons.mp hv with rfl | hv
    · obtain ⟨st₀, a, st', hst₀, ha, _, hst', _, hcerts, hkeys⟩ := hp.decodes hj
      have heq : decode S.json (S.document sec) = .ok st := hst
      rw [hst'] at heq
      cases heq
      exact hwire _ _ (hstep m t st₀ a (ih v' mem_cons_self st₀ hst₀) ha) hcerts hkeys
    · exact ih v hv st hst

/-- What holds of the document of one version, and what no commit after it takes
away, holds of the document of a later version. -/
theorem Chain.between (hj : S.json.Lawful) (h : Chain S start s) {a b : Version Blob (Note ι μ)}
    {sa sb : List (Version Blob (Note ι μ))} (hab : a :: sa <:+ b :: sb) (hb : b :: sb <:+ s)
    (ha : ∀ st, decode S.json (S.document a.secret) = .ok st → P st)
    (hstep : ∀ v old rest i m t st x st', v :: old :: rest <:+ b :: sb →
      a :: sa <:+ old :: rest → v.note = some (i, m, t) →
      decode S.json (S.document old.secret) = .ok st →
      S.sem m t st = .ok x → st'.epoch = x.state.epoch →
      st'.revokedCerts = x.state.revokedCerts →
      (∀ kid, (st'.keys.lookup kid).map KeyRecord.wire =
        (x.state.keys.lookup kid).map KeyRecord.wire) → P st → P st') :
    ∀ st, decode S.json (S.document b.secret) = .ok st → P st := by
  obtain ⟨mid, hmid⟩ := hab
  -- the induction is on the versions in between, the newest of which is `b`
  induction mid generalizing b sb with
  | nil =>
    cases hmid
    exact ha
  | cons x mid ih =>
    obtain ⟨rfl, rfl⟩ := List.cons.inj hmid
    intro st hst
    rcases h.suffix_cases hb with ⟨_, hnil⟩ | ⟨i, m, t, old, rest, sec, hnote, hold, hp, hdoc⟩
    · simp at hnil
    obtain ⟨st₀, y, st', hst₀, hy, _, hst', hepoch, hcerts, hkeys⟩ := hp.decodes hj
    rw [hdoc, hst'] at hst
    cases hst
    rw [hold] at hb hstep
    have hprev : P st₀ := by
      refine ih ((suffix_cons _ _).trans hb) (fun v old' rest' i' m' t' st x st' hs => ?_)
        hold st₀ hst₀
      exact hstep v old' rest' i' m' t' st x st' (hs.trans (suffix_cons _ _))
    exact hstep _ old rest i m t st₀ y _ (suffix_refl _) ⟨mid, hold⟩ hnote hst₀ hy hepoch
      hcerts hkeys hprev

end Chain

theorem chain_fold {start : Option (Secret Blob)} {s : List (Version Blob (Note ι μ))}
    (h : Chain S start s) :
    s = [] ∧ start = none ∨ ∃ base sec, FirstVersion S start base ∧ current s = some sec ∧
      (commits s).foldlM (nextDocument S) (S.document base) = .ok (S.document sec) ∧
      CarriesOver S base sec := by
  induction h with
  | absent h => exact .inl ⟨rfl, h⟩
  | @given sec h => exact .inr ⟨sec, sec, .inl h, rfl, rfl, rfl, rfl, rfl⟩
  | @created r rv h => exact .inr ⟨_, _, .inr ⟨h, r, rv, rfl⟩, rfl, rfl, rfl, rfl, rfl⟩
  | @commit v vs i m t sec rv _ hp ih =>
    rcases ih with ⟨h, _⟩ | ⟨base, cur, hbase, hcur, hfold, hcarry⟩
    · cases h
    have hv : v.secret = cur := by simpa [current] using hcur
    subst hv
    obtain ⟨hnext, hover⟩ := nextDocument_proposal i hp
    refine .inr ⟨base, _, hbase, rfl, ?_, hcarry.trans hover⟩
    rw [commits_push, foldlM_append, hfold]
    simp only [Option.toList_some, foldlM_cons, foldlM_nil]
    change (nextDocument S (S.document v.secret) (i, m, t) >>= fun d => pure d) = _
    rw [hnext]
    rfl

/-! ## Who is in the fold -/

section Commits

variable [DecidableEq ι]

theorem mem_commits (w : World ρ ι μ Blob) (i : ι) (m : μ) (t : Int) :
    (i, m, t) ∈ commits w.server ↔ (m, t) ∈ commitsOf i w := by
  unfold commits commitsOf
  rw [filterMap_reverse, mem_reverse, mem_filterMap, mem_filterMap]
  refine exists_congr fun v => and_congr_right fun _ => ?_
  unfold commitBy
  cases hv : v.note with
  | none => simp
  | some c =>
    obtain ⟨j, m', t'⟩ := c
    by_cases hj : j = i <;> simp [hj]

theorem commitsOf_eq_nil {w : World ρ ι μ Blob} {i : ι} (h : commitsOf i w = []) :
    i ∉ (commits w.server).map Prod.fst := by
  intro hi
  obtain ⟨⟨j, m, t⟩, hmem, rfl⟩ := mem_map.mp hi
  rw [mem_commits, h] at hmem
  cases hmem

theorem count_commits (i : ι) :
    ((commits s).map Prod.fst).count i = (s.filterMap (commitBy i)).length := by
  induction s with
  | nil => rfl
  | cons v s ih =>
    rw [commits_push, map_append, count_append, ih, filterMap_cons]
    unfold commitBy
    cases hv : v.note with
    | none => simp
    | some c =>
      obtain ⟨j, m, t⟩ := c
      by_cases hj : j = i <;> simp [hj]

end Commits

/-- The exits of `mutate` after which nothing of the call can have been
written: all but a commit and an update whose answer was an error. -/
def Exit.silent : Exit β Blob → Bool
  | .committed _ _ => false
  | .updateFailed _ => false
  | _ => true

variable {C : ι → Op ρ μ Blob → Env → World ρ ι μ Blob → Prop} {I : World ρ ι μ Blob → Prop} {i : ι}
  {plan : Plan ι μ Blob} {w w' : World ρ ι μ Blob} {x : Exit β Blob}

theorem Mutated.silent [DecidableEq ι] {r : ρ} (h : Mutated S plan I C i r m w x w')
    (hx : x.silent = true) : commitsOf i w' = [] := by
  cases x with
  | committed | updateFailed => cases hx
  | refused | unchanged => exact h.1
  | _ => exact h

theorem calls_of_mutated [DecidableEq ι] {q : Request ρ μ}
    (h : Promise S plan I C i w q (.mutated x) w') :
    ∃ r m, q = .mutate r m ∧ Mutated S plan I C i r m w x w' := by
  cases q with
  | mutate r m => exact ⟨r, m, rfl, h⟩
  | _ => cases h

/-- After every run, the Secret is absent and nothing was written, or the document is the fold of
the mutations that committed, in the order of their commits, and all else in the Secret is as it
was. Each call is in the fold at most once, with its own mutation, and just when it returned its
commit, unless it got an error for its update. -/
theorem the_document_is_the_fold_of_the_commits [DecidableEq ρ] [DecidableEq ι]
    (S : Setup ρ μ β Blob) (start : Option (Secret Blob)) (hv : Versioned start)
    (calls : ι → Request ρ μ) (ls : List (ι × Env))
    (c : Conf (@Ans ρ μ Blob) ι (World ρ ι μ Blob) (Outcome β Blob))
    (hr : run (machine S) (system S start calls) ls = some c) :
    (c.shared.server = [] ∧ start = none ∨
      ∃ base sec, FirstVersion S start base ∧ current c.shared.server = some sec ∧
        (commits c.shared.server).foldlM (nextDocument S) (S.document base) = .ok (S.document sec) ∧
        CarriesOver S base sec) ∧
    ((commits c.shared.server).map Prod.fst).Nodup ∧
    (∀ i m t, (i, m, t) ∈ commits c.shared.server → ∃ r, calls i = .mutate r m) ∧
    (∀ i b sec, c.thread i = .done (.mutated (.committed b sec)) →
      i ∈ (commits c.shared.server).map Prod.fst) ∧
    ∀ i x, c.thread i = .done (.mutated x) → x.silent = true →
      i ∉ (commits c.shared.server).map Prod.fst := by
  obtain ⟨hg, _, hdone⟩ := promise_of_run hv (keeps_true S _ fun _ _ _ _ => True) trivial
    (meets_true _ ls) hr
  refine ⟨chain_fold hg.chain, ?_, fun i m t h => ?_, fun i b sec h => ?_, fun i x h hx => ?_⟩
  · rw [nodup_iff_count_le_one]
    intro i
    rw [count_commits]
    exact hg.once i
  · exact hg.carried i m t ((mem_commits _ i m t).mp h)
  · obtain ⟨r, m, _, _, t, _, hcom⟩ := calls_of_mutated (hdone i _ h)
    refine mem_map.mpr ⟨(i, m, t), (mem_commits _ i m t).mpr ?_, rfl⟩
    rw [hcom]
    exact mem_singleton_self _
  · obtain ⟨r, m, _, hmut⟩ := calls_of_mutated (hdone i _ h)
    exact commitsOf_eq_nil (hmut.silent hx)

def revocations (b : Bool) : Request Bool store.Op :=
  .mutate b (.revokeCert { serial := if b then "2" else "1", revokedAt := 0, notAfter := 0,
                           reason := "" })

/-- Both replicas read the Secret that one of them created, the other one wins
the update, and the loser retries. -/
def race : List (Bool × Env) :=
  steps (List.replicate 7 false ++ List.replicate 6 true ++ List.replicate 2 false ++
    List.replicate 8 true)

theorem the_document_is_the_fold_of_the_commits_of_a_race :
    ∃ c, run (machine twoReplicas) (system twoReplicas none revocations) race = some c ∧
      (commits c.shared.server).map Prod.fst = [false, true] ∧
      ((commits c.shared.server).map Prod.fst).Nodup := by
  have hends : ((run (machine twoReplicas) (system twoReplicas none revocations) race).map
      fun c => (commits c.shared.server).map Prod.fst) = some [false, true] := by decide
  obtain ⟨c, hc, hcommits⟩ := Option.map_eq_some_iff.mp hends
  have hlaw := the_document_is_the_fold_of_the_commits twoReplicas none (fun _ h => by cases h)
    revocations race c hc
  exact ⟨c, hc, hcommits, hlaw.2.1⟩

end prom_fleet.secretstore
