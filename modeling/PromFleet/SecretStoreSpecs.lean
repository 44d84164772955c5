-- The specs of `load`, `mutate` and `read`: where the Secret that a call works
-- on came from, and what a call has written when it ends. They hold for every
-- interleaving, and for every further invariant that the operations keep.
import PromFleet.SecretStoreRules

namespace prom_fleet.secretstore

open interleave kube store Prog

variable {ρ ι μ β Blob : Type} [DecidableEq ρ] [DecidableEq ι]

/-! ## The pact of the calls -/

variable (S : Setup ρ μ β Blob)

/-- The calls keep the invariant and `I`, in runs whose steps meet `C`. A call
relies on the others to grow the state and to commit nothing in its name. -/
def pact (plan : Plan ι μ Blob) (I : World ρ ι μ Blob → Prop)
    (C : ι → Op ρ μ Blob → Env → World ρ ι μ Blob → Prop) :
    Pact (Op ρ μ Blob) ι Env (World ρ ι μ Blob) where
  inv w := Good S plan w ∧ I w
  cond := C
  rely i w w' := Grows w w' ∧ commitsOf i w' = commitsOf i w
  guar i w w' := Grows w w' ∧ ∀ j, j ≠ i → commitsOf j w' = commitsOf j w
  rely_refl _ w := ⟨Grows.refl w, rfl⟩
  rely_trans _ _ _ _ h h' := ⟨h.1.trans h'.1, h'.2.trans h.2⟩
  rely_of_guar _ j _ _ hij _ _ h := ⟨h.1, h.2 j (Ne.symm hij)⟩

/-- The legal operations keep `I` in steps that meet `C`. -/
def Keeps (plan : Plan ι μ Blob) (I : World ρ ι μ Blob → Prop)
    (C : ι → Op ρ μ Blob → Env → World ρ ι μ Blob → Prop) : Prop :=
  ∀ i o e w a u, Good S plan w → I w → Legal S plan i o w → C i o e w →
    act S i o e w = some (a, u) → I u

theorem keeps_true (plan : Plan ι μ Blob)
    (C : ι → Op ρ μ Blob → Env → World ρ ι μ Blob → Prop) :
    Keeps S plan (fun _ : World ρ ι μ Blob => True) C := fun _ _ _ _ _ _ _ _ _ _ _ => trivial

section Specs

variable {S : Setup ρ μ β Blob} {plan : Plan ι μ Blob} {I : World ρ ι μ Blob → Prop}
  {C : ι → Op ρ μ Blob → Env → World ρ ι μ Blob → Prop} {i : ι} {α : Type}

variable (S plan I C i) in
abbrev Fulfils := Holds (α := α) (machine S) (pact S plan I C) i

variable (S plan I C i) in
/-- What is known of a step of call `i` that it asked for in the state `w`: the
others moved the state to `t`, and the step moved it to `u`. -/
structure Stepped (o : Op ρ μ Blob) (w t : World ρ ι μ Blob) (e : Env) (a : Ans o)
    (u : World ρ ι μ Blob) :
    Prop where
  grown : Grows w t
  same : commitsOf i t = commitsOf i w
  good : Good S plan t
  kept : I t
  cond : C i o e t
  acts : act S i o e t = some (a, u)
  good' : Good S plan u
  kept' : I u
  grows : Grows t u

variable {e : Env} {o : Op ρ μ Blob} {a : Ans o} {t u w : World ρ ι μ Blob}

theorem Stepped.all (h : Stepped S plan I C i o w t e a u) : Grows w u :=
  h.grown.trans h.grows

theorem Stepped.commits (h : Stepped S plan I C i o w t e a u)
    (ho : ∀ sec m t, o ≠ .updateSecret sec m t) : commitsOf i u = commitsOf i w :=
  (act_commits h.acts ho i).trans h.same

variable {Q : α → World ρ ι μ Blob → Prop}

theorem holds_op (hI : Keeps S plan I C) {k : Ans o → Call ρ μ Blob α}
    (hl : ∀ t, Grows w t → commitsOf i t = commitsOf i w → Legal S plan i o t)
    (hk : ∀ t e a u, Stepped S plan I C i o w t e a u →
      Fulfils S plan I C i (k a) Q u) : Fulfils S plan I C i (.op o k) Q w := by
  intro t ht hinv e he a u hact
  have hleg := hl t ht.1 ht.2
  obtain ⟨hg, hgrow, hother⟩ := act_good hinv.1 hleg hact
  have hkept := hI i o e t a u hinv.1 hinv.2 hleg he hact
  exact ⟨⟨hg, hkept⟩, ⟨hgrow, hother⟩,
    hk t e a u ⟨ht.1, ht.2, hinv.1, hinv.2, he, hact, hg, hkept, hgrow⟩⟩

theorem holds_done {a : α} (h : ∀ t, Grows w t → commitsOf i t = commitsOf i w → Q a t) :
    Fulfils S plan I C i (.done a) Q w := fun t ht _ => h t ht.1 ht.2

/-! ## Loads -/

variable (S plan I C i) in
/-- Where the Secret of a load came from, for a load between `w` and `w'`: it
was the current one in between, or the cache answered with it in between. -/
def Source (r : ρ) (fresh : Bool) (w w' : World ρ ι μ Blob) (sec : Secret Blob) : Prop :=
  ∃ v, Grows w v ∧ Grows v w' ∧ Good S plan v ∧ I v ∧
    (current v.server = some sec ∨
      fresh = false ∧ ∃ e, C i (.cachedSecret r) e v ∧
        (v.mem r).fresh (S.cfg r).ttl e.now = some sec)

variable {fresh : Bool} {r : ρ} {sec : Secret Blob} {w' : World ρ ι μ Blob}

omit [DecidableEq ρ] in
theorem Source.mono {w₁ w₂ : World ρ ι μ Blob} (h : Source S plan I C i r fresh w₁ w₂ sec)
    (h₁ : Grows w w₁) (h₂ : Grows w₂ w') : Source S plan I C i r false w w' sec := by
  obtain ⟨v, hv, hv', hg, hI, hs⟩ := h
  exact ⟨v, h₁.trans hv, hv'.trans h₂, hg, hI, hs.imp_right fun h => ⟨rfl, h.2⟩⟩

omit [DecidableEq ρ] in
theorem Source.stored (h : Source S plan I C i r fresh w w' sec) : Stored sec w'.server := by
  obtain ⟨v, _, hv', hg, _, hs⟩ := h
  rcases hs with hs | ⟨_, _, _, hs⟩
  · exact (stored_current hs).mono hv'.1
  · exact (hg.cached r sec (Mem.cached_of_fresh hs)).1.mono hv'.1

variable (S plan I C i r) in
/-- What a load that began in `w` has done when it ends in `w'`. -/
def Loaded (fresh : Bool)
    (w : World ρ ι μ Blob) (x : Except LoadErr (Secret Blob)) (w' : World ρ ι μ Blob) : Prop :=
  Grows w w' ∧ commitsOf i w' = commitsOf i w ∧
    ∀ sec, x = .ok sec → Source S plan I C i r fresh w w' sec ∧
      sec.resourceVersion ≤ (w'.mem r).newest

theorem cache_spec (hI : Keeps S plan I C) (hgrow : Grows w u)
    (hcom : commitsOf i u = commitsOf i w) (hg : Good S plan u) (hu : I u)
    (hcur : current u.server = some sec) :
    Fulfils S plan I C i (.op (.cache r sec) fun _ => .done (.ok sec))
      (Loaded S plan I C i r fresh w) u := by
  refine holds_op hI (fun t ht _ => (stored_current hcur).mono ht.1) fun t e a v hstep => ?_
  refine holds_done fun t' ht' hc' => ⟨(hgrow.trans hstep.all).trans ht', ?_, fun sec' he => ?_⟩
  · rw [hc', hstep.commits (by simp), hcom]
  cases he
  refine ⟨⟨u, hgrow, hstep.all.trans ht', hg, hu, .inl hcur⟩, ?_⟩
  exact le_trans (act_cache hstep.acts) (ht'.2 r)

theorem fail_spec {e : LoadErr} (hgrow : Grows w u) (hcom : commitsOf i u = commitsOf i w) :
    Fulfils S plan I C i (.done (.error e)) (Loaded S plan I C i r fresh w) u :=
  holds_done fun _ ht hc => ⟨hgrow.trans ht, hc.trans hcom, fun _ he => by cases he⟩

theorem fetch_spec (hI : Keeps S plan I C) (r : ρ) (fresh : Bool) (hgrow : Grows w u)
    (hcom : commitsOf i u = commitsOf i w) :
    Fulfils S plan I C i (fetch S r) (Loaded S plan I C i r fresh w) u := by
  unfold fetch
  simp only [call_bind, pure_eq]
  refine holds_op hI (fun _ _ _ => trivial) fun t e a v hget => ?_
  obtain ⟨_, hcur⟩ := act_getSecret hget.acts
  have hgv := hgrow.trans hget.all
  have hcv := (hget.commits (by simp)).trans hcom
  match a with
  | .ok sec => exact cache_spec hI hgv hcv hget.good' hget.kept' (by
      obtain ⟨rfl, _⟩ := act_getSecret hget.acts
      exact hcur sec rfl)
  | .error .notFound =>
    refine holds_op hI (fun _ _ _ => ⟨r, rfl⟩) fun t' e' a' v' hcre => ?_
    have hgv' := hgv.trans hcre.all
    have hcv' := (hcre.commits (by simp)).trans hcv
    match a' with
    | .ok created =>
      exact cache_spec hI hgv' hcv' hcre.good' hcre.kept' (act_createSecret hcre.acts created rfl)
    | .error .alreadyExists =>
      refine holds_op hI (fun _ _ _ => trivial) fun t'' e'' a'' v'' hagain => ?_
      have hgv'' := hgv'.trans hagain.all
      have hcv'' := (hagain.commits (by simp)).trans hcv'
      match a'' with
      | .ok sec => exact cache_spec hI hgv'' hcv'' hagain.good' hagain.kept' (by
          obtain ⟨rfl, hcur'⟩ := act_getSecret hagain.acts
          exact hcur' sec rfl)
      | .error er => exact fail_spec hgv'' hcv''
    | .error .notFound | .error .conflict | .error .noResourceVersion | .error .other =>
      exact fail_spec hgv' hcv'
  | .error .alreadyExists | .error .conflict | .error .noResourceVersion | .error .other =>
    exact fail_spec hgv hcv

theorem load_spec (hI : Keeps S plan I C) (r : ρ) (fresh : Bool) (w : World ρ ι μ Blob) :
    Fulfils S plan I C i (load S r fresh) (Loaded S plan I C i r fresh w) w := by
  unfold load
  simp only [call_bind, pure_eq]
  split
  · rename_i hfresh
    refine holds_op hI (fun _ _ _ => trivial) fun t e a u hstep => ?_
    obtain ⟨rfl, rfl⟩ := act_cachedSecret hstep.acts
    split
    · rename_i sec hhit
      refine holds_done fun t' ht' hc' => ⟨hstep.all.trans ht', ?_, fun sec' he => ?_⟩
      · rw [hc', hstep.commits (by simp)]
      cases he
      refine ⟨⟨u, hstep.grown, ht', hstep.good, hstep.kept, .inr ⟨by simpa using hfresh, e,
        hstep.cond, hhit⟩⟩, ?_⟩
      exact le_trans (hstep.good.cached r sec (Mem.cached_of_fresh hhit)).2 (ht'.2 r)
    · exact fetch_spec hI r fresh hstep.all (hstep.commits (by simp))
  · exact fetch_spec hI r fresh (Grows.refl w) rfl

/-! ## Mutations -/

variable (S plan I C i r) in
/-- What a mutation that began in `w` has done when it ends in `w'`: a verdict is one on a Secret
that it loaded, a commit is a version in its name, and no other end leaves a version behind,
unless the answer to an update was dropped. -/
def Mutated (m : μ) (w : World ρ ι μ Blob) (x : Exit β Blob) (w' : World ρ ι μ Blob) : Prop :=
  match x with
  | .refused er => commitsOf i w' = [] ∧ ∃ sec st t, Source S plan I C i r false w w' sec ∧
      decode S.json (S.document sec) = .ok st ∧ S.sem m t st = .error er
  | .unchanged b => commitsOf i w' = [] ∧ ∃ sec st t a, Source S plan I C i r false w w' sec ∧
      decode S.json (S.document sec) = .ok st ∧ S.sem m t st = .ok a ∧ a.changed = false ∧
      a.result = b
  | .committed _ sec => sec.resourceVersion ≤ (w'.mem r).newest ∧
      ∃ t, { secret := sec, note := some (i, m, t) } ∈ w'.server ∧ commitsOf i w' = [(m, t)]
  | .updateFailed _ => commitsOf i w' = [] ∨
      ∃ sec t e v, C i (.updateSecret sec m t) e v ∧ e.fault = .dropped
  | _ => commitsOf i w' = []

variable {m : μ} {x : Exit β Blob}

omit [DecidableEq ρ] in
theorem Mutated.stable (h : Mutated S plan I C i r m w x w') (hgrow : Grows w' t)
    (hcom : commitsOf i t = commitsOf i w') : Mutated S plan I C i r m w x t := by
  unfold Mutated at *
  rw [hcom]
  cases x with
  | refused er =>
    obtain ⟨h1, sec, st, t', hs, h2⟩ := h
    exact ⟨h1, sec, st, t', hs.mono (Grows.refl w) hgrow, h2⟩
  | unchanged b =>
    obtain ⟨h1, sec, st, t', a, hs, h2⟩ := h
    exact ⟨h1, sec, st, t', a, hs.mono (Grows.refl w) hgrow, h2⟩
  | committed b sec =>
    obtain ⟨h1, t', h2, h3⟩ := h
    exact ⟨le_trans h1 (hgrow.2 r), t', hgrow.1.subset h2, h3⟩
  | _ => exact h

theorem exit_spec (h : Mutated S plan I C i r m w x u) :
    Fulfils S plan I C i (.done x) (Mutated S plan I C i r m w) u :=
  holds_done fun _ ht hc => h.stable ht hc

variable (S plan I C i r m) in
/-- What an attempt has done: without an exit it has written nothing. -/
def Attempted (w : World ρ ι μ Blob) (x : Option (Exit β Blob)) (w' : World ρ ι μ Blob) : Prop :=
  match x with
  | none => Grows w w' ∧ commitsOf i w' = []
  | some x => Mutated S plan I C i r m w x w'

theorem attempted_spec (h : Mutated S plan I C i r m w x u) :
    Fulfils S plan I C i (.done (some x)) (Attempted S plan I C i r m w) u :=
  holds_done fun _ ht hc => h.stable ht hc

theorem update_spec (hI : Keeps S plan I C) (hm : plan.carries i m) (hgrow : Grows w u)
    (hcom : commitsOf i u = []) {sec' : Secret Blob} {t : Int} {b : β}
    (hstored : Stored sec u.server) (hprop : Proposal S sec m t sec')
    {k : Except kube.Err (Secret Blob) → Call ρ μ Blob (Option (Exit β Blob))}
    (hok : ∀ updated, k (.ok updated) =
      .op (.cache r updated) fun _ => .done (some (.committed b updated)))
    (hconflict : k (.error .conflict) = .done none)
    (herror : ∀ er, er ≠ .conflict → k (.error er) = .done (some (.updateFailed er))) :
    Fulfils S plan I C i (.op (.updateSecret sec' m t) k) (Attempted S plan I C i r m w) u := by
  refine holds_op hI (fun v hv hc => ⟨⟨sec, hstored.mono hv.1, hprop⟩, hm, hc.trans hcom⟩)
    fun v e a v' hput => ?_
  obtain ⟨hdone, hfail⟩ := act_updateSecret hput.acts
  have hbefore : commitsOf i v = [] := hput.same.trans hcom
  have hgv := hgrow.trans hput.all
  cases a with
  | ok updated =>
    rw [hok]
    have hserver := hdone updated rfl
    have hmem : { secret := updated, note := some (i, m, t) } ∈ v'.server := by
      rw [hserver]
      exact List.mem_cons_self
    have hcommit : commitsOf i v' = [(m, t)] := by
      rw [commitsOf_push i hserver, hbefore]
      simp [commitBy]
    refine holds_op hI (fun x hx _ => ⟨_, hx.1.subset hmem, rfl⟩) fun x e' a' x' hfill => ?_
    refine attempted_spec ⟨act_cache hfill.acts, t, hfill.all.1.subset hmem, ?_⟩
    exact (hfill.commits (by simp)).trans hcommit
  | error er =>
    have hnone : commitsOf i v' = [] ∨ er = .other ∧ e.fault = .dropped := by
      refine (hfail er rfl).imp_left fun hs => ?_
      rw [← hbefore]
      unfold commitsOf
      rw [hs]
    by_cases her : er = .conflict
    · subst her
      rw [hconflict]
      refine holds_done fun x hx hc => ⟨hgv.trans hx, ?_⟩
      rcases hnone with h | ⟨h, _⟩
      · exact hc.trans h
      · cases h
    · rw [herror er her]
      exact attempted_spec (hnone.imp_right fun h => ⟨sec', t, e, v, hput.cond, h.2⟩)

theorem attempt_spec (hI : Keeps S plan I C) (r : ρ) (hm : plan.carries i m) (fresh : Bool)
    (hgrow : Grows w u) (hcom : commitsOf i u = []) (hg : Good S plan u) (hu : I u) :
    Fulfils S plan I C i (attempt S r m fresh) (Attempted S plan I C i r m w) u := by
  unfold attempt
  simp only [call_bind, pure_eq]
  refine (load_spec hI r fresh u).seq ⟨hg, hu⟩ fun x v hinv hload => ?_
  obtain ⟨hgv, hcv, hsrc⟩ := hload
  have hnone : commitsOf i v = [] := hcv.trans hcom
  match x with
  | .error er => exact attempted_spec hnone
  | .ok sec =>
    have hsec := (hsrc sec rfl).1
    simp only
    split
    · exact attempted_spec hnone
    rename_i st hst
    refine holds_op hI (fun _ _ _ => trivial) fun t e a v' hnow => ?_
    have hnone' : commitsOf i v' = [] := (hnow.commits (by simp)).trans hnone
    have hsec' := hsec.mono hgrow hnow.all
    split
    · rename_i er her
      exact attempted_spec ⟨hnone', sec, st, a, hsec', hst, her⟩
    rename_i b hb
    split
    · rename_i hch
      exact attempted_spec ⟨hnone', sec, st, a, b, hsec', hst, hb, by simpa using hch, rfl⟩
    rename_i hch
    split
    · exact attempted_spec hnone'
    rename_i encoded henc
    have hprop : Proposal S sec m a { sec with data := sec.data.insert S.key encoded } := by
      refine ⟨st, b, hst, hb, by simpa using hch, ?_⟩
      rw [encodeWithin_ok S.json henc]
    refine update_spec hI hm ((hgrow.trans hgv).trans hnow.all) hnone' hsec'.stored hprop
      (fun _ => rfl) rfl fun er her => ?_
    cases er with
    | conflict => exact absurd rfl her
    | _ => rfl

theorem attempts_spec (hI : Keeps S plan I C) (r : ρ) (hm : plan.carries i m) (n : Nat)
    (fresh : Bool) (hgrow : Grows w u) (hcom : commitsOf i u = []) (hg : Good S plan u) (hu : I u) :
    Fulfils S plan I C i (attempts S r m n fresh) (Mutated S plan I C i r m w) u := by
  induction n generalizing fresh u with
  | zero =>
    exact exit_spec hcom
  | succ n ih =>
    unfold attempts
    simp only [call_bind, pure_eq]
    refine (attempt_spec hI r hm fresh hgrow hcom hg hu).seq ⟨hg, hu⟩ fun x v hinv hatt => ?_
    match x with
    | some x => exact exit_spec hatt
    | none =>
      obtain ⟨hgv, hnone⟩ := hatt
      refine holds_op hI (fun _ _ _ => trivial) fun t e a v' hdrop => ?_
      refine holds_op hI (fun _ _ _ => trivial) fun t' e' a' v'' hsleep => ?_
      have hnone' : commitsOf i v'' = [] :=
        (hsleep.commits (by simp)).trans ((hdrop.commits (by simp)).trans hnone)
      split
      · exact exit_spec hnone'
      · exact ih true ((hgv.trans hdrop.all).trans hsleep.all) hnone' hsleep.good' hsleep.kept'

theorem mutate_spec (hI : Keeps S plan I C) (r : ρ) (hm : plan.carries i m)
    (hcom : commitsOf i w = []) :
    Fulfils S plan I C i (mutate S r m) (Mutated S plan I C i r m w) w := by
  unfold mutate
  simp only [call_bind, pure_eq]
  refine holds_op hI (fun _ _ _ => trivial) fun t e closed v hclosed => ?_
  refine holds_op hI (fun _ _ _ => trivial) fun t' e' done v' hctx => ?_
  have hnone : commitsOf i v' = [] :=
    (hctx.commits (by simp)).trans ((hclosed.commits (by simp)).trans hcom)
  split
  · exact exit_spec hnone
  split
  · exact exit_spec hnone
  · exact attempts_spec hI r hm _ false (hclosed.all.trans hctx.all) hnone hctx.good' hctx.kept'

/-! ## Reads -/

variable (S plan I C i r) in
/-- What a read that began in `w` has done when it ends in `w'`. -/
def Read (w : World ρ ι μ Blob) (x : Except ReadErr State) (w' : World ρ ι μ Blob) : Prop :=
  Grows w w' ∧ commitsOf i w' = commitsOf i w ∧
    ∀ st, x = .ok st → ∃ sec, Source S plan I C i r false w w' sec ∧
      sec.resourceVersion ≤ (w'.mem r).newest ∧ decode S.json (S.document sec) = .ok st

theorem unread_spec {e : ReadErr} (hgrow : Grows w u) (hcom : commitsOf i u = commitsOf i w) :
    Fulfils S plan I C i (.done (.error e)) (Read S plan I C i r w) u :=
  holds_done fun _ ht hc => ⟨hgrow.trans ht, hc.trans hcom, fun _ he => by cases he⟩

theorem read_spec (hI : Keeps S plan I C) (r : ρ) (w : World ρ ι μ Blob) :
    Fulfils S plan I C i (read S r) (Read S plan I C i r w) w := by
  unfold read
  simp only [call_bind, pure_eq]
  refine holds_op hI (fun _ _ _ => trivial) fun t e closed v hclosed => ?_
  refine holds_op hI (fun _ _ _ => trivial) fun t' e' done v' hctx => ?_
  have hgv := hclosed.all.trans hctx.all
  have hcv := (hctx.commits (by simp)).trans (hclosed.commits (by simp))
  split
  · exact unread_spec hgv hcv
  split
  · exact unread_spec hgv hcv
  refine (load_spec hI r false v').seq ⟨hctx.good', hctx.kept'⟩ fun x u hinv hload => ?_
  obtain ⟨hgu, hcu, hsrc⟩ := hload
  match x with
  | .error er => exact unread_spec (hgv.trans hgu) (hcu.trans hcv)
  | .ok sec =>
    obtain ⟨hsec, hnew⟩ := hsrc sec rfl
    simp only
    split
    · exact unread_spec (hgv.trans hgu) (hcu.trans hcv)
    rename_i st hst
    refine holds_done fun x hx hc =>
      ⟨(hgv.trans hgu).trans hx, hc.trans (hcu.trans hcv), fun st' he => ?_⟩
    cases he
    exact ⟨sec, hsec.mono hgv hx, le_trans hnew (hx.2 r), hst⟩

theorem close_spec (hI : Keeps S plan I C) (r : ρ) (w : World ρ ι μ Blob) :
    Fulfils S plan I C i (close r) (fun _ w' => commitsOf i w' = commitsOf i w) w := by
  refine holds_op hI (fun _ _ _ => trivial) fun t e a u hstep => ?_
  exact holds_done fun x _ hc => hc.trans (hstep.commits (by simp))

end Specs

end prom_fleet.secretstore
