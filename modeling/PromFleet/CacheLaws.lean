-- The laws of the cache of a replica. Nothing orders the fills of the cache, so a late fill
-- can put an older version over a newer one, and a mutation can be decided on a version that
-- another replica has already replaced. Both laws hold in the runs without that.
import PromFleet.PruneLaws
import PromFleet.StoreSystem
import Mathlib.Tactic.IntervalCases

namespace prom_fleet.secretstore

open interleave kube store

variable {ρ ι μ β Blob : Type} [DecidableEq ρ] [DecidableEq ι]

/-! ## Loads in the order of their versions -/

/-- A fill of the cache of `r` brings no version older than one that was cached
there before. -/
def FillsInOrder (r : ρ) (_ : ι) (o : Op ρ μ Blob) (_ : Env) (w : World ρ ι μ Blob) : Prop :=
  ∀ sec, o = .cache r sec → (w.mem r).newest ≤ sec.resourceVersion

instance (r : ρ) (i : ι) (o : Op ρ μ Blob) (e : Env) (w : World ρ ι μ Blob) :
    Decidable (FillsInOrder r i o e w) :=
  match o with
  | .cache r' sec =>
    decidable_of_iff (r' = r → (w.mem r).newest ≤ sec.resourceVersion) <| by
      simp [FillsInOrder]
  | .isClosed _ | .ctxDone | .cachedSecret _ | .invalidate _ | .now _ | .getSecret
  | .createSecret _ | .updateSecret _ _ _ | .sleep | .close _ =>
    isTrue fun _ h => by cases h

/-- The cache of `r` holds the newest version that it ever held. -/
def HoldsNewest (r : ρ) (w : World ρ ι μ Blob) : Prop :=
  ∀ sec, (w.mem r).cached = some sec → sec.resourceVersion = (w.mem r).newest

variable {r : ρ} {w : World ρ ι μ Blob}

omit [DecidableEq ι] in
theorem holdsNewest_setMem {r' : ρ} {m : Mem Blob} (hw : HoldsNewest r w)
    (hm : r' = r → ∀ sec, m.cached = some sec → sec.resourceVersion = m.newest) :
    HoldsNewest r (w.setMem r' m) := by
  intro sec h
  by_cases hr : r = r'
  · subst hr
    simp only [World.setMem, Function.update_self] at h ⊢
    exact hm rfl sec h
  · simp only [World.setMem, Function.update_of_ne hr] at h ⊢
    exact hw sec h

theorem keeps_holdsNewest (S : Setup ρ μ β Blob) (plan : Plan ι μ Blob) (r : ρ) :
    Keeps S plan (HoldsNewest r) (FillsInOrder r) := by
  intro i o e w a u hg hw _ hfill hact
  cases o with
  | cache r' sec =>
    cases hact
    refine holdsNewest_setMem hw fun hr sec' h => ?_
    subst hr
    have hle := hfill sec rfl
    simp only [Mem.fill, Option.some.injEq] at h ⊢
    subst h
    exact (max_eq_right hle).symm
  | invalidate | close =>
    cases hact
    exact holdsNewest_setMem hw fun _ sec h => by cases h
  | _ => cases hact; exact hw

variable {S : Setup ρ μ β Blob} {cur : Secret Blob} {plan : Plan ι μ Blob}

omit [DecidableEq ρ] in
theorem Good.newest_le (hg : Good S plan w) (r : ρ) (hc : current w.server = some cur) :
    (w.mem r).newest ≤ cur.resourceVersion := by
  rcases hg.newest r with h | ⟨sec, hs, h⟩
  · omega
  · rw [← h]
    exact hg.ordered.le_current hs hc

variable {I : World ρ ι μ Blob → Prop} {i : ι} {sec : Secret Blob} {w' : World ρ ι μ Blob}

omit [DecidableEq ρ] in
/-- A load serves no version older than the newest that was cached when it
began. -/
theorem Source.newest_le {C : ι → Op ρ μ Blob → Env → World ρ ι μ Blob → Prop} {fresh : Bool}
    (hI : ∀ v, I v → HoldsNewest r v) (h : Source S plan I C i r fresh w w' sec) :
    (w.mem r).newest ≤ sec.resourceVersion := by
  obtain ⟨v, hv, _, hg, hnew, hs⟩ := h
  rcases hs with hs | ⟨_, _, _, hs⟩
  · exact le_trans (hv.2 r) (hg.newest_le r hs)
  · rw [hI v hnew sec (Mem.cached_of_fresh hs)]
    exact hv.2 r

/-- In a run that fills the cache of `r` in order, a load at `r` that begins after `c₁` serves a
version at least as new as each one that a mutation at `r` had committed, or a load at `r` served,
by then. -/
theorem loads_do_not_go_back_if_fills_are_in_order (S : Setup ρ μ β Blob)
    (start : Option (Secret Blob)) (hv : Versioned start) (calls : ι → Request ρ μ) (r : ρ)
    (ls₁ ls₂ : List (ι × Env)) (c₁ c₂ : Conf (@Ans ρ μ Blob) ι (World ρ ι μ Blob) (Outcome β Blob))
    (hm : Meets (machine S) (FillsInOrder r) (system S start calls) (ls₁ ++ ls₂))
    (hr₁ : run (machine S) (system S start calls) ls₁ = some c₁)
    (hr₂ : run (machine S) c₁ ls₂ = some c₂) (j : ι) (hj : ∀ l ∈ ls₁, l.1 ≠ j) (fresh : Bool)
    (hload : calls j = .load r fresh) (sec : Secret Blob)
    (hd : c₂.thread j = .done (.loaded (.ok sec))) :
    (∀ i m b sec', calls i = .mutate r m → c₁.thread i = .done (.mutated (.committed b sec')) →
      sec'.resourceVersion ≤ sec.resourceVersion) ∧
    ∀ i fresh' sec', calls i = .load r fresh' → c₁.thread i = .done (.loaded (.ok sec')) →
      sec'.resourceVersion ≤ sec.resourceVersion := by
  have hkeep := keeps_holdsNewest S (planOf start calls) r
  have h0 : HoldsNewest r (initial start : World ρ ι μ Blob) := fun sec h => by cases h
  obtain ⟨hm₁, hm₂⟩ := meets_append hm hr₁
  obtain ⟨_, _, hdone⟩ := promise_of_run hv hkeep h0 hm₁ hr₁
  have hlate := promise_of_late hv hkeep hkeep (fun _ _ _ _ h => h) h0 hm₁ hr₁ hj hm₂ hr₂ hd
  rw [hload] at hlate
  have hserved := (hlate.2.2 sec rfl).1.newest_le fun _ h => h
  refine ⟨fun i m b sec' hi h => ?_, fun i fresh' sec' hi h => ?_⟩
  · have hmut := hdone i _ h
    rw [hi] at hmut
    exact le_trans hmut.1 hserved
  · have hld := hdone i _ h
    rw [hi] at hld
    exact le_trans (hld.2.2 sec' rfl).2 hserved

/-- A Secret that an operator prepared, without a document. -/
def prepared : Secret State := { resourceVersion := 1, data := ∅, labels := ∅, annotations := ∅ }

/-- Two loads and a revocation at one replica. -/
def lateFill : Fin 3 → Request Bool store.Op
  | 0 => .load false false
  | 1 => .mutate false
      (.revokeCert { serial := "1", revokedAt := 0, notAfter := 0, reason := "" })
  | 2 => .load false false

/-- The first load gets its answer before the revocation and caches it after the
revocation has returned. -/
def lateFillBefore : List (Fin 3 × Env) := steps [0, 0, 1, 1, 1, 1, 1, 1, 1, 1, 0]

theorem loads_do_not_go_back_if_the_late_fill_comes_first : ∃ c₁ c₂ b sec sec',
      run (machine twoReplicas) (system twoReplicas (some prepared) lateFill)
        (steps [0, 0, 0, 1, 1, 1, 1, 1, 1]) = some c₁ ∧
      c₁.thread 1 = .done (.mutated (.committed b sec)) ∧
      run (machine twoReplicas) c₁ (steps [2]) = some c₂ ∧
      c₂.thread 2 = .done (.loaded (.ok sec')) ∧
      sec.resourceVersion ≤ sec'.resourceVersion := by
  refine ⟨_, _, _, _, _, rfl, rfl, rfl, rfl, ?_⟩
  have hv : Versioned (some prepared) := by
    intro sec h
    cases h
    decide
  exact (loads_do_not_go_back_if_fills_are_in_order twoReplicas (some prepared) hv lateFill false
    (steps [0, 0, 0, 1, 1, 1, 1, 1, 1]) (steps [2]) _ _ (by decide) rfl rfl 2 (by decide) false rfl
    _ rfl).1 1 _ _ _ rfl rfl

theorem a_late_fill_takes_a_load_back : ∃ c₁ c₂ b sec sec',
      run (machine twoReplicas) (system twoReplicas (some prepared) lateFill) lateFillBefore =
        some c₁ ∧
      c₁.thread 1 = .done (.mutated (.committed b sec)) ∧ (∀ l ∈ lateFillBefore, l.1 ≠ 2) ∧
      run (machine twoReplicas) c₁ (steps [2]) = some c₂ ∧
      c₂.thread 2 = .done (.loaded (.ok sec')) ∧
      sec'.resourceVersion < sec.resourceVersion :=
  ⟨_, _, _, _, _, rfl, rfl, by decide, rfl, rfl, by decide⟩

/-! ## Verdicts on the persisted document -/

/-- The mutation decides about the Secret without a change: it refuses, or it
finds nothing to do. -/
def Decides (S : Setup ρ μ β Blob) (m : μ) (sec : Secret Blob) : Prop :=
  ∃ st t, decode S.json (S.document sec) = .ok st ∧
    ∀ a, S.sem m t st = .ok a → a.changed = false

/-- If the cache of `r` answers the call `i`, then with a Secret that the
mutation does not decide about, or with one no older than the Secret that stood
in `w₀`. -/
def HitIsCurrent (S : Setup ρ μ β Blob) (i : ι) (r : ρ) (m : μ) (w₀ : World ρ ι μ Blob) (j : ι)
    (o : Op ρ μ Blob) (e : Env) (w : World ρ ι μ Blob) : Prop :=
  j = i → o = .cachedSecret r → ∀ sec, (w.mem r).fresh (S.cfg r).ttl e.now = some sec →
    Decides S m sec → ∀ cur, current w₀.server = some cur →
      cur.resourceVersion ≤ sec.resourceVersion

/-- A Secret that is stored at the end of a run, and that is not older than the
one at its begin, was current at some time of the run. -/
theorem current_in_run {ls : List (ι × Env)}
    {c c' : Conf (@Ans ρ μ Blob) ι (World ρ ι μ Blob) (Outcome β Blob)}
    (hr : run (machine S) c ls = some c') (hs : Stored sec c'.shared.server)
    (h0 : Stored sec c.shared.server → current c.shared.server = some sec) :
    ∃ ls₁ ls₂ d, ls = ls₁ ++ ls₂ ∧ run (machine S) c ls₁ = some d ∧
      current d.shared.server = some sec := by
  induction ls generalizing c with
  | nil =>
    cases hr
    exact ⟨[], [], _, rfl, rfl, h0 hs⟩
  | cons l ls ih =>
    by_cases hcur : current c.shared.server = some sec
    · exact ⟨[], l :: ls, c, rfl, rfl, hcur⟩
    obtain ⟨d, hd, hr'⟩ := run_cons.mp hr
    obtain ⟨o, k, a, _, hact, _⟩ := step_cases hd
    have hnot : ¬ Stored sec c.shared.server := fun h => hcur (h0 h)
    have h0' : Stored sec d.shared.server → current d.shared.server = some sec := by
      intro hst
      rcases act_server hact with hsv | ⟨v, hsv, _⟩
      · rw [hsv] at hst
        exact absurd hst hnot
      rw [hsv] at hst ⊢
      obtain ⟨x, hx, rfl⟩ := hst
      rcases List.mem_cons.mp hx with rfl | hx
      · rfl
      · exact absurd ⟨x, hx, rfl⟩ hnot
    obtain ⟨ls₁, ls₂, e, rfl, he, hcur'⟩ := ih hr' h0'
    exact ⟨l :: ls₁, ls₂, e, rfl, run_cons.mpr ⟨d, hd, he⟩, hcur'⟩

omit [DecidableEq ρ] in
/-- The Secret that a verdict is on was not replaced before the call began. -/
theorem Source.not_older {m : μ} (h : Source S plan I (HitIsCurrent S i r m w) i r false w w' sec)
    (hdec : Decides S m sec) (hc : current w.server = some cur) :
    cur.resourceVersion ≤ sec.resourceVersion := by
  obtain ⟨v, hv, _, hg, _, hs⟩ := h
  rcases hs with hs | ⟨_, e, hhit, hs⟩
  · exact hg.ordered.le_current ((stored_current hc).mono hv.1) hs
  · exact hhit rfl rfl sec hs hdec cur hc

/-- A call of `mutate` begins in `c₁` and ends in `c₂` without a write. If the cache gave it no
verdict on a Secret that was replaced before it began, the mutation gives this verdict on the
persisted document of some time of the call. -/
theorem a_verdict_is_current_if_the_cache_is (S : Setup ρ μ β Blob)
    (start : Option (Secret Blob)) (hv : Versioned start) (calls : ι → Request ρ μ)
    (ls₁ ls₂ : List (ι × Env))
    (c₁ c₂ : Conf (@Ans ρ μ Blob) ι (World ρ ι μ Blob) (Outcome β Blob)) (i : ι) (r : ρ) (m : μ)
    (hcall : calls i = .mutate r m)
    (hr₁ : run (machine S) (system S start calls) ls₁ = some c₁) (hi : ∀ l ∈ ls₁, l.1 ≠ i)
    (hm : Meets (machine S) (HitIsCurrent S i r m c₁.shared) c₁ ls₂)
    (hr₂ : run (machine S) c₁ ls₂ = some c₂) :
    (∀ er, c₂.thread i = .done (.mutated (.refused er)) →
      ∃ ls ls' d sec st t, ls₂ = ls ++ ls' ∧ run (machine S) c₁ ls = some d ∧
        current d.shared.server = some sec ∧ decode S.json (S.document sec) = .ok st ∧
        S.sem m t st = .error er) ∧
    ∀ b, c₂.thread i = .done (.mutated (.unchanged b)) →
      ∃ ls ls' d sec st t a, ls₂ = ls ++ ls' ∧ run (machine S) c₁ ls = some d ∧
        current d.shared.server = some sec ∧ decode S.json (S.document sec) = .ok st ∧
        S.sem m t st = .ok a ∧ a.changed = false ∧ a.result = b := by
  have hpromise : ∀ x, c₂.thread i = .done (.mutated x) →
      Mutated S (planOf start calls) (fun _ => True) (HitIsCurrent S i r m c₁.shared) i r m
        c₁.shared x c₂.shared := by
    intro x hd
    have hlate := promise_of_late hv (keeps_true S _ fun _ _ _ _ => True) (keeps_true S _ _)
      (fun _ _ _ _ _ => trivial) trivial (meets_true _ ls₁) hr₁ hi hm hr₂ hd
    rw [hcall] at hlate
    exact hlate
  obtain ⟨hg₁, _, _⟩ := promise_of_run hv (keeps_true S _ fun _ _ _ _ => True) trivial
    (meets_true _ ls₁) hr₁
  have hfind : ∀ sec, Decides S m sec →
      Source S (planOf start calls) (fun _ => True) (HitIsCurrent S i r m c₁.shared) i r false
        c₁.shared c₂.shared sec →
      ∃ ls ls' d, ls₂ = ls ++ ls' ∧ run (machine S) c₁ ls = some d ∧
        current d.shared.server = some sec := by
    intro sec hdec hsrc
    refine current_in_run hr₂ hsrc.stored fun hst => ?_
    -- a Secret stored at the begin, and not older than the current one, is the current one
    cases hc : current c₁.shared.server with
    | none =>
      obtain ⟨v, hv, _⟩ := hst
      rw [current_eq_none hc] at hv
      cases hv
    | some cur =>
      have hle := hg₁.ordered.le_current hst hc
      have hge := hsrc.not_older hdec hc
      rw [hg₁.ordered.eq_current hst hc (by omega)]
  refine ⟨fun er hd => ?_, fun b hd => ?_⟩
  · obtain ⟨_, sec, st, t, hsrc, hst, her⟩ := hpromise _ hd
    have hdec : Decides S m sec := ⟨st, t, hst, fun a ha => by rw [her] at ha; cases ha⟩
    obtain ⟨ls, ls', d, hls, hrun, hcur⟩ := hfind sec hdec hsrc
    exact ⟨ls, ls', d, sec, st, t, hls, hrun, hcur, hst, her⟩
  · obtain ⟨_, sec, st, t, a, hsrc, hst, ha, hch, hb⟩ := hpromise _ hd
    have hdec : Decides S m sec := ⟨st, t, hst, fun a' ha' => by
      rw [ha] at ha'
      cases ha'
      exact hch⟩
    obtain ⟨ls, ls', d, hls, hrun, hcur⟩ := hfind sec hdec hsrc
    exact ⟨ls, ls', d, sec, st, t, a, hls, hrun, hcur, hst, ha, hch, hb⟩

/-- One replica has cached the Secret, the other one stores a key, and then the
first one is asked to revoke that key. -/
def staleHit : Fin 3 → Request Bool store.Op
  | 0 => .load false false
  | 1 => .mutate true (.putKey (some (installKey "k" "prod")))
  | 2 => .mutate false (.revokeKey "k" "leaked" 0)

/-- The cache answers no call in this step, or with this version or a later one. -/
def hitsFrom (S : Setup ρ μ β Blob) (version : Nat) (_ : ι) (o : Op ρ μ Blob) (e : Env)
    (w : World ρ ι μ Blob) : Bool :=
  match o with
  | .cachedSecret r =>
    ((w.mem r).fresh (S.cfg r).ttl e.now).all fun sec => decide (version ≤ sec.resourceVersion)
  | _ => true

def currentHitBefore : List (Fin 3 × Env) := steps [0, 0, 0, 1, 1, 1, 1, 1]

def currentHitDuring : List (Fin 3 × Env) := steps [2, 2, 2, 2, 1, 1, 1]

/-- The cache answers while the Secret that it has is still the current one: the other replica
stores the key only after the answer. -/
theorem a_verdict_is_current_at_a_hit : ∃ c₁ c₂,
      run (machine twoReplicas) (system twoReplicas (some prepared) staleHit) currentHitBefore =
        some c₁ ∧
      run (machine twoReplicas) c₁ currentHitDuring = some c₂ ∧
      c₂.thread 2 = .done (.mutated (.refused (.keyNotFound "k"))) ∧
      ∃ ls ls' d sec st t, currentHitDuring = ls ++ ls' ∧
        run (machine twoReplicas) c₁ ls = some d ∧ current d.shared.server = some sec ∧
        decode plainJson (twoReplicas.document sec) = .ok st ∧
        (store.Op.revokeKey "k" "leaked" 0).apply t st = .error (.keyNotFound "k") := by
  obtain ⟨c₁, h₁, hcur, hhits, c₂, h₂, hverdict⟩ : ∃ c₁,
      run (machine twoReplicas) (system twoReplicas (some prepared) staleHit) currentHitBefore =
        some c₁ ∧ current c₁.shared.server = some prepared ∧
      Meets (machine twoReplicas) (fun i o e w => hitsFrom twoReplicas 1 i o e w = true) c₁
        currentHitDuring ∧
      ∃ c₂, run (machine twoReplicas) c₁ currentHitDuring = some c₂ ∧
        c₂.thread 2 = .done (.mutated (.refused (.keyNotFound "k"))) :=
    ⟨_, rfl, rfl, by decide, _, rfl, rfl⟩
  refine ⟨c₁, c₂, h₁, h₂, hverdict, ?_⟩
  refine (a_verdict_is_current_if_the_cache_is twoReplicas (some prepared)
    (by rintro _ ⟨⟩; decide) staleHit currentHitBefore currentHitDuring c₁ c₂ 2 false
    (.revokeKey "k" "leaked" 0) rfl h₁ (by decide)
    (hhits.mono fun j o e w h _ ho sec hf _ cur hc => ?_) h₂).1 _ hverdict
  subst ho
  rw [hcur] at hc
  cases hc
  simpa [hitsFrom, hf, prepared] using h

def staleHitBefore : List (Fin 3 × Env) := steps [0, 0, 0, 1, 1, 1, 1, 1, 1, 1, 1]

/-- All the time of the call the document holds the key and allows to revoke
it, and the call returns that there is no such key. -/
theorem a_stale_hit_refuses_what_the_document_allows : ∃ c₁ c₂ sec st,
      run (machine twoReplicas) (system twoReplicas (some prepared) staleHit) staleHitBefore =
        some c₁ ∧
      (∀ l ∈ staleHitBefore, l.1 ≠ 2) ∧
      run (machine twoReplicas) c₁ (steps [2, 2, 2, 2]) = some c₂ ∧
      c₂.thread 2 = .done (.mutated (.refused (.keyNotFound "k"))) ∧
      current c₁.shared.server = some sec ∧
      decode plainJson (twoReplicas.document sec) = .ok st ∧
      (∀ t, ∃ a, (Op.revokeKey "k" "leaked" 0).apply t st = .ok a ∧ a.changed = true) ∧
      ∀ n ≤ 4, ∀ d, run (machine twoReplicas) c₁ (steps (List.replicate n 2)) = some d →
        current d.shared.server = some sec := by
  refine ⟨_, _, _, _, rfl, by decide, rfl, rfl, rfl, rfl, fun t => ⟨_, rfl, rfl⟩,
    fun n hn d hd => ?_⟩
  interval_cases n <;> (cases hd; rfl)

end prom_fleet.secretstore
