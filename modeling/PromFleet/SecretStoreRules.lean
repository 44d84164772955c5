-- What the calls of the Secret-backed store owe each other. Every cached or stored Secret is
-- one version of one chain, each version is what one mutation made of the one before it, and a
-- call adds at most one version.
import PromFleet.SecretStore

namespace prom_fleet.secretstore

open interleave kube store List Function

variable {ρ ι μ β Blob : Type}

/-! ## The chain of versions -/

/-- `sec'` is what the mutation at `t` makes of `sec`: the document is the new
one, and all else is carried over. -/
def Proposal (S : Setup ρ μ β Blob) (sec : Secret Blob) (m : μ) (t : Int) (sec' : Secret Blob) :
    Prop :=
  ∃ st a, decode S.json (S.document sec) = .ok st ∧ S.sem m t st = .ok a ∧ a.changed = true ∧
    sec' = { sec with data := sec.data.insert S.key (encode S.json a.state) }

/-- The versions that the calls can make of the Secret `start`. -/
inductive Chain (S : Setup ρ μ β Blob) (start : Option (Secret Blob)) :
    List (Version Blob (Note ι μ)) → Prop
  | absent : start = none → Chain S start []
  | given {sec : Secret Blob} : start = some sec → Chain S start [{ secret := sec, note := none }]
  | created {r : ρ} {rv : Nat} : start = none →
      Chain S start [{ secret := { S.empty r with resourceVersion := rv }, note := none }]
  | commit {v : Version Blob (Note ι μ)} {vs : List (Version Blob (Note ι μ))} {i : ι} {m : μ}
      {t : Int} {sec : Secret Blob} {rv : Nat} :
      Chain S start (v :: vs) → Proposal S v.secret m t sec →
      Chain S start ({ secret := { sec with resourceVersion := rv }, note := some (i, m, t) } ::
        v :: vs)

variable [DecidableEq ι]

/-- The commit of call `i` that made the version, if it is one. -/
def commitBy (i : ι) (v : Version Blob (Note ι μ)) : Option (μ × Int) :=
  match v.note with
  | none => none
  | some (j, m, t) => if j = i then some (m, t) else none

/-- The commits of call `i`, the newest first. -/
def commitsOf (i : ι) (w : World ρ ι μ Blob) : List (μ × Int) := w.server.filterMap (commitBy i)

/-! ## The invariant -/

/-- What a run starts from, and which mutations a call may carry. -/
structure Plan (ι μ Blob : Type) where
  start : Option (Secret Blob)
  carries : ι → μ → Prop

structure Good (S : Setup ρ μ β Blob) (plan : Plan ι μ Blob) (w : World ρ ι μ Blob) :
    Prop where
  ordered : Ordered w.server
  chain : Chain S plan.start w.server
  cached : ∀ r sec, (w.mem r).cached = some sec →
    Stored sec w.server ∧ sec.resourceVersion ≤ (w.mem r).newest
  newest : ∀ r, (w.mem r).newest = 0 ∨
    ∃ sec, Stored sec w.server ∧ sec.resourceVersion = (w.mem r).newest
  once : ∀ i, (commitsOf i w).length ≤ 1
  carried : ∀ i m t, (m, t) ∈ commitsOf i w → plan.carries i m

/-- The server and the record of what was cached only grow. -/
def Grows (w w' : World ρ ι μ Blob) : Prop :=
  w.server <:+ w'.server ∧ ∀ r, (w.mem r).newest ≤ (w'.mem r).newest

omit [DecidableEq ι] in
theorem Grows.refl (w : World ρ ι μ Blob) : Grows w w := ⟨suffix_refl _, fun _ => le_refl _⟩

variable {w : World ρ ι μ Blob}

omit [DecidableEq ι] in
theorem Grows.trans {w' w'' : World ρ ι μ Blob} (h : Grows w w') (h' : Grows w' w'') :
    Grows w w'' :=
  ⟨h.1.trans h'.1, fun r => le_trans (h.2 r) (h'.2 r)⟩

/-- The request is one that the calls make: a cached Secret was stored, a created one is empty,
and an update is a proposal of a call that has not committed yet. -/
def Legal (S : Setup ρ μ β Blob) (plan : Plan ι μ Blob) (i : ι) (o : Op ρ μ Blob)
    (w : World ρ ι μ Blob) : Prop :=
  match o with
  | .cache _ sec => Stored sec w.server
  | .createSecret sec => ∃ r, sec = S.empty r
  | .updateSecret sec m t =>
    (∃ old, Stored old w.server ∧ Proposal S old m t sec) ∧ plan.carries i m ∧ commitsOf i w = []
  | _ => True

/-! ## One operation -/

section Step

variable {S : Setup ρ μ β Blob} {plan : Plan ι μ Blob} {i : ι} {e : Env}
  {w u : World ρ ι μ Blob}

/-- A step that leaves the server alone and fills no cache with a Secret that
was not stored keeps the invariant. -/
theorem good_of_mem (hg : Good S plan w) (hs : u.server = w.server)
    (hc : ∀ r sec, (u.mem r).cached = some sec →
      Stored sec w.server ∧ sec.resourceVersion ≤ (u.mem r).newest)
    (hn : ∀ r, (u.mem r).newest = (w.mem r).newest ∨
      ∃ sec, Stored sec w.server ∧ sec.resourceVersion = (u.mem r).newest) : Good S plan u := by
  have hcom : ∀ j, commitsOf j u = commitsOf j w := fun j => by unfold commitsOf; rw [hs]
  refine ⟨by rw [hs]; exact hg.ordered, by rw [hs]; exact hg.chain, by rw [hs]; exact hc, ?_, ?_,
    ?_⟩
  · intro r
    rw [hs]
    rcases hn r with h | h
    · rw [h]
      exact hg.newest r
    · exact .inr h
  · intro j
    rw [hcom]
    exact hg.once j
  · intro j m t h
    rw [hcom] at h
    exact hg.carried j m t h

variable {v : Version Blob (Note ι μ)}

theorem commitsOf_push (j : ι) (hs : u.server = v :: w.server) :
    commitsOf j u = (commitBy j v).toList ++ commitsOf j w := by
  unfold commitsOf
  rw [hs, filterMap_cons]
  cases commitBy j v <;> rfl

theorem good_push (hg : Good S plan w) (hs : u.server = v :: w.server) (hm : u.mem = w.mem)
    (ho : Ordered (v :: w.server)) (hc : Chain S plan.start (v :: w.server))
    (hfirst : ∀ j c, commitBy j v = some c → plan.carries j c.1 ∧ commitsOf j w = []) :
    Good S plan u := by
  refine ⟨by rw [hs]; exact ho, by rw [hs]; exact hc, ?_, ?_, ?_, ?_⟩
  · intro r sec h
    rw [hm] at h ⊢
    obtain ⟨h1, h2⟩ := hg.cached r sec h
    rw [hs]
    exact ⟨h1.mono (suffix_cons v w.server), h2⟩
  · intro r
    rw [hm, hs]
    rcases hg.newest r with h | ⟨sec, h1, h2⟩
    · exact .inl h
    · exact .inr ⟨sec, h1.mono (suffix_cons v w.server), h2⟩
  · intro j
    rw [commitsOf_push j hs]
    cases hb : commitBy j v with
    | none => exact hg.once j
    | some c => simp [(hfirst j c hb).2]
  · intro j m t h
    rw [commitsOf_push j hs, mem_append, Option.mem_toList] at h
    rcases h with h | h
    · exact (hfirst j (m, t) h).1
    · exact hg.carried j m t h

variable [DecidableEq ρ]

theorem good_setMem (hg : Good S plan w) (r : ρ) (m : Mem Blob)
    (hc : ∀ sec, m.cached = some sec → Stored sec w.server ∧ sec.resourceVersion ≤ m.newest)
    (hn : m.newest = (w.mem r).newest ∨
      ∃ sec, Stored sec w.server ∧ sec.resourceVersion = m.newest) : Good S plan (w.setMem r m) :=
  good_of_mem hg rfl
    ((forall_update_iff w.mem fun _ m => ∀ sec, m.cached = some sec →
      Stored sec w.server ∧ sec.resourceVersion ≤ m.newest).mpr ⟨hc, fun r' _ => hg.cached r'⟩)
    ((forall_update_iff w.mem fun r' m => m.newest = (w.mem r').newest ∨
      ∃ sec, Stored sec w.server ∧ sec.resourceVersion = m.newest).mpr ⟨hn, fun _ _ => .inl rfl⟩)

omit [DecidableEq ι] in
theorem grows_setMem (r : ρ) (m : Mem Blob) (hn : (w.mem r).newest ≤ m.newest) :
    Grows w (w.setMem r m) :=
  ⟨suffix_refl _, (forall_update_iff w.mem fun r' m => (w.mem r').newest ≤ m.newest).mpr
    ⟨hn, fun _ _ => le_rfl⟩⟩

variable {sec : Secret Blob}

theorem good_cache (hg : Good S plan w) {r : ρ} (size : Nat) (now : Int)
    (hsec : Stored sec w.server) : Good S plan (w.setMem r ((w.mem r).fill size now sec)) := by
  refine good_setMem hg r _ (fun sec' h => ?_) ?_
  · cases h
    exact ⟨hsec, le_max_right _ _⟩
  · rcases le_total (w.mem r).newest sec.resourceVersion with h | h
    · exact .inr ⟨sec, hsec, (max_eq_right h).symm⟩
    · exact .inl (max_eq_left h)

variable {a : Except kube.Err (Secret Blob)}

omit [DecidableEq ι] in
theorem act_create (h : act S i (.createSecret sec) e w = some (a, u)) :
    deliver e.fault w.server (kube.createSecret e.gap none sec w.server) = (a, u.server) ∧
      u.mem = w.mem := by
  cases hd : deliver e.fault w.server (kube.createSecret e.gap none sec w.server) with
  | mk x server =>
    simp only [act, hd, Option.some.injEq, Prod.mk.injEq] at h
    obtain ⟨rfl, rfl⟩ := h
    exact ⟨rfl, rfl⟩

omit [DecidableEq ι] in
theorem act_update {m : μ} {t : Int} (h : act S i (.updateSecret sec m t) e w = some (a, u)) :
    deliver e.fault w.server (kube.updateSecret e.gap (some (i, m, t)) sec w.server) =
      (a, u.server) ∧ u.mem = w.mem := by
  cases hd : deliver e.fault w.server (kube.updateSecret e.gap (some (i, m, t)) sec w.server) with
  | mk x server =>
    simp only [act, hd, Option.some.injEq, Prod.mk.injEq] at h
    obtain ⟨rfl, rfl⟩ := h
    exact ⟨rfl, rfl⟩

end Step

/-! ## One request -/

section Request

variable {S : Setup ρ μ β Blob} {plan : Plan ι μ Blob} {i : ι}
  {s s' : List (Version Blob (Note ι μ))} {w u : World ρ ι μ Blob}

variable (S plan i s s') in
/-- The request leaves the server alone, or it adds one version to the chain, and if a call made
it, it is the first of call `i` and carries what that call may carry. -/
def Pushes : Prop :=
  s' = s ∨ ∃ v, s' = v :: s ∧ Ordered (v :: s) ∧ Chain S plan.start (v :: s) ∧
    ∀ j c, commitBy j v = some c → j = i ∧ plan.carries i c.1 ∧ s.filterMap (commitBy i) = []

variable {gap : Nat} {x : Except kube.Err (Secret Blob)}

theorem pushes_createSecret (hc : Chain S plan.start s) {r : ρ}
    (h : kube.createSecret gap none (S.empty r) s = (x, s')) : Pushes S plan i s s' := by
  rcases createSecret_cases h with ⟨rfl, _⟩ | ⟨hcur, stored, rfl, _, rfl⟩
  · exact .inl rfl
  obtain rfl := current_eq_none hcur
  refine .inr ⟨_, rfl, ?_, ?_, fun j c hj => by cases hj⟩
  · exact ordered_nil.push (Nat.succ_pos _) fun cur h => by cases h
  · cases hc with
    | absent hs => exact .created hs

theorem pushes_updateSecret (ho : Ordered s) (hc : Chain S plan.start s) {m : μ} {t : Int}
    {old sec : Secret Blob} (hold : Stored old s) (hp : Proposal S old m t sec)
    (hm : plan.carries i m) (hfirst : s.filterMap (commitBy i) = [])
    (h : kube.updateSecret gap (some (i, m, t)) sec s = (x, s')) : Pushes S plan i s s' := by
  rcases updateSecret_cases h with ⟨rfl, _⟩ | ⟨cur, stored, hcur, hrv, rfl, _, rfl⟩
  · exact .inl rfl
  -- the server took the update, so the Secret it was made from is the newest one
  have hrv' : sec.resourceVersion = old.resourceVersion := by
    obtain ⟨_, _, _, _, _, rfl⟩ := hp
    rfl
  obtain rfl := ho.eq_current hold hcur (by omega)
  obtain ⟨v, rest, rfl, rfl⟩ := current_eq_some hcur
  refine .inr ⟨_, rfl, ?_, .commit hc hp, fun j c hj => ?_⟩
  · refine ho.push (Nat.succ_pos _) fun cur hcur' => ?_
    cases hcur'
    simp only
    omega
  · simp only [commitBy] at hj
    split at hj
    · rename_i heq
      cases hj
      exact ⟨heq.symm, hm, hfirst⟩
    · cases hj

theorem Pushes.deliver {f : Fault}
    {r : Except kube.Err (Secret Blob) × List (Version Blob (Note ι μ))}
    (hr : Pushes S plan i s r.2) (h : deliver f s r = (x, s')) : Pushes S plan i s s' :=
  deliver_keeps (.inl rfl) hr h

theorem Pushes.good (hp : Pushes S plan i w.server u.server) (hm : u.mem = w.mem)
    (hg : Good S plan w) :
    Good S plan u ∧ Grows w u ∧ ∀ j, j ≠ i → commitsOf j u = commitsOf j w := by
  rcases hp with hs | ⟨v, hs, ho, hc, hby⟩
  · have hcom : ∀ j, commitsOf j u = commitsOf j w := fun j => by unfold commitsOf; rw [hs]
    refine ⟨good_of_mem hg hs (fun r sec h => ?_) fun r => .inl (by rw [hm]), ?_, fun j _ => hcom j⟩
    · rw [hm] at h ⊢
      exact hg.cached r sec h
    · exact ⟨by rw [hs], fun r => by rw [hm]⟩
  · have hother : ∀ j, j ≠ i → commitsOf j u = commitsOf j w := by
      intro j hj
      rw [commitsOf_push j hs]
      cases hb : commitBy j v with
      | none => rfl
      | some c => exact absurd (hby j c hb).1 hj
    refine ⟨good_push hg hs hm ho hc fun j c hb => ?_, ⟨?_, fun r => by rw [hm]⟩, hother⟩
    · obtain ⟨rfl, hfirst⟩ := hby j c hb
      exact hfirst
    · rw [hs]
      exact suffix_cons v w.server

end Request

/-- Every legal operation keeps the invariant, only grows the state, and leaves
the commits of the other calls alone. -/
theorem act_good [DecidableEq ρ] {S : Setup ρ μ β Blob} {plan : Plan ι μ Blob} {i : ι}
    {o : Op ρ μ Blob} {e : Env} {u : World ρ ι μ Blob} {a : Ans o} (hg : Good S plan w)
    (hl : Legal S plan i o w) (h : act S i o e w = some (a, u)) :
    Good S plan u ∧ Grows w u ∧ ∀ j, j ≠ i → commitsOf j u = commitsOf j w := by
  have hsame : ∀ {u' : World ρ ι μ Blob}, u' = w →
      Good S plan u' ∧ Grows w u' ∧ ∀ j, j ≠ i → commitsOf j u' = commitsOf j w := by
    rintro u' rfl
    exact ⟨hg, Grows.refl _, fun _ _ => rfl⟩
  cases o with
  | isClosed | ctxDone | cachedSecret | now | getSecret | sleep => cases h; exact hsame rfl
  | cache r sec =>
    cases h
    exact ⟨good_cache hg _ _ hl, grows_setMem r _ (le_max_left _ _), fun _ _ => rfl⟩
  | invalidate r | close r =>
    cases h
    exact ⟨good_setMem hg r _ (fun _ h => by cases h) (.inl rfl), grows_setMem r _ (le_refl _),
      fun _ _ => rfl⟩
  | createSecret sec =>
    obtain ⟨r, rfl⟩ := hl
    obtain ⟨hd, hmem⟩ := act_create h
    exact (Pushes.deliver (pushes_createSecret hg.chain rfl) hd).good hmem hg
  | updateSecret sec m t =>
    obtain ⟨⟨old, hold, hprop⟩, hm, hfirst⟩ := hl
    obtain ⟨hd, hmem⟩ := act_update h
    exact (Pushes.deliver (pushes_updateSecret hg.ordered hg.chain hold hprop hm hfirst rfl)
      hd).good hmem hg

/-! ## What an answer tells -/

section Answer

variable [DecidableEq ρ] {S : Setup ρ μ β Blob} {i : ι} {e : Env} {w u : World ρ ι μ Blob}
  {sec : Secret Blob}

theorem Mem.cached_of_fresh {m : Mem Blob} {ttl now : Int} (h : m.fresh ttl now = some sec) :
    m.cached = some sec := by
  unfold Mem.fresh at h
  split at h
  · cases h
  · exact h

variable {r : ρ}

omit [DecidableEq ι] in
theorem act_cachedSecret {a : Option (Secret Blob)}
    (h : act S i (.cachedSecret r) e w = some (a, u)) :
    u = w ∧ a = (w.mem r).fresh (S.cfg r).ttl e.now := by
  simp only [act, Option.some.injEq, Prod.mk.injEq] at h
  exact ⟨h.2.symm, h.1.symm⟩

omit [DecidableEq ι] in
theorem act_cache {a : Unit} (h : act S i (.cache r sec) e w = some (a, u)) :
    sec.resourceVersion ≤ (u.mem r).newest := by
  simp only [act, Option.some.injEq, Prod.mk.injEq] at h
  obtain ⟨_, rfl⟩ := h
  simp [World.setMem, Mem.fill]

variable {a : Except kube.Err (Secret Blob)}

omit [DecidableEq ι] in
theorem act_getSecret (h : act S i .getSecret e w = some (a, u)) :
    u = w ∧ ∀ sec, a = .ok sec → current w.server = some sec := by
  simp only [act, Option.some.injEq, Prod.mk.injEq] at h
  obtain ⟨rfl, rfl⟩ := h
  refine ⟨rfl, fun sec hs => ?_⟩
  cases hd : deliver e.fault w.server (kube.getSecret w.server, w.server) with
  | mk x s' =>
    rw [hd] at hs
    simp only at hs
    subst hs
    rcases deliver_cases hd with h | ⟨h, _⟩
    · simp only [Prod.mk.injEq] at h
      exact getSecret_ok h.1.symm
    · cases h

omit [DecidableEq ι] in
theorem act_createSecret (h : act S i (.createSecret sec) e w = some (a, u)) :
    ∀ sec', a = .ok sec' → current u.server = some sec' := by
  intro sec' ha
  subst ha
  rcases deliver_cases (act_create h).1 with h | ⟨h, _⟩
  · rcases createSecret_cases h.symm with ⟨_, he⟩ | ⟨_, stored, _, he, hs⟩
    · cases he
    · cases he
      rw [hs]
      rfl
  · cases h

omit [DecidableEq ι] in
theorem act_updateSecret {m : μ} {t : Int} (h : act S i (.updateSecret sec m t) e w = some (a, u)) :
    (∀ sec', a = .ok sec' → u.server = { secret := sec', note := some (i, m, t) } :: w.server) ∧
    (∀ er, a = .error er → u.server = w.server ∨ er = .other ∧ e.fault = .dropped) := by
  rcases deliver_cases (act_update h).1 with h | ⟨rfl, h | ⟨h, _⟩⟩
  · rcases updateSecret_cases h.symm with ⟨hs, er, rfl⟩ | ⟨_, stored, _, _, rfl, rfl, hs⟩
    · exact ⟨fun _ h => (by cases h), fun _ _ => .inl hs⟩
    · refine ⟨fun sec' h => ?_, fun _ h => by cases h⟩
      cases h
      exact hs
  · exact ⟨fun _ h => (by cases h), fun _ _ => .inl h⟩
  · exact ⟨fun _ h => (by cases h), fun er he => .inr ⟨by cases he; rfl, h⟩⟩

/-- What `s'` has and `s` has not, after the operation `o` of call `i`: nothing, a
first version, or the version of an update. -/
def Adds (i : ι) (o : Op ρ μ Blob) (s s' : List (Version Blob (Note ι μ))) : Prop :=
  s' = s ∨ ∃ v, s' = v :: s ∧
    (v.note = none ∧ s = [] ∨ ∃ sec m t, o = .updateSecret sec m t ∧ v.note = some (i, m, t))

variable {o : Op ρ μ Blob}

omit [DecidableEq ι] in
theorem act_server {a : Ans o} (h : act S i o e w = some (a, u)) : Adds i o w.server u.server := by
  cases o with
  | createSecret sec =>
    refine deliver_keeps (.inl rfl) ?_ (act_create h).1
    rcases createSecret_cases (rfl : kube.createSecret e.gap none sec w.server = _) with
      ⟨h, _⟩ | ⟨hcur, _, _, _, h⟩
    · exact .inl h
    · exact .inr ⟨_, h, .inl ⟨rfl, current_eq_none hcur⟩⟩
  | updateSecret sec m t =>
    refine deliver_keeps (.inl rfl) ?_ (act_update h).1
    rcases updateSecret_cases (rfl : kube.updateSecret e.gap (some (i, m, t)) sec w.server = _) with
      ⟨h, _⟩ | ⟨_, _, _, _, _, _, h⟩
    · exact .inl h
    · exact .inr ⟨_, h, .inr ⟨sec, m, t, rfl, rfl⟩⟩
  | _ => cases h; exact .inl rfl

theorem server_of_run {α : Type} {ls : List (ι × Env)}
    {c c' : Conf (@Ans ρ μ Blob) ι (World ρ ι μ Blob) α}
    (hr : run (machine S) c ls = some c') : c.shared.server <:+ c'.shared.server := by
  induction ls generalizing c with
  | nil => cases hr; exact suffix_refl _
  | cons l ls ih =>
    obtain ⟨d, hd, hr'⟩ := run_cons.mp hr
    obtain ⟨o, k, a, _, hact, _⟩ := step_cases hd
    refine .trans ?_ (ih hr')
    rcases act_server hact with hs | ⟨v, hs, _⟩
    · rw [hs]
    · rw [hs]
      exact suffix_cons v _

theorem act_commits {a : Ans o} (h : act S i o e w = some (a, u))
    (ho : ∀ sec m t, o ≠ .updateSecret sec m t) (j : ι) : commitsOf j u = commitsOf j w := by
  rcases act_server h with hs | ⟨v, hs, ⟨hv, _⟩ | ⟨sec, m, t, he, _⟩⟩
  · unfold commitsOf
    rw [hs]
  · rw [commitsOf_push j hs]
    simp [commitBy, hv]
  · exact absurd he (ho sec m t)

end Answer

end prom_fleet.secretstore
