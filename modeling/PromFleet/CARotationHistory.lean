-- Every version of the CA Secret, in every interleaving of polls and other writes, is
-- an edit that leaves the rotation alone or the write of a plan that was made from the
-- version before it.
import PromFleet.CARotation

namespace prom_fleet.rotation

open interleave gotime List Prog kube

variable {Cert Key ι : Type}

/-! ## What a plan can be -/

/-- What the run grants: how a minted key lies to a signer that the server has stored,
and the settings and the reading of a promotion. -/
structure Terms where
  minted : Bytes → Bytes → Prop
  promoted : Config → Int → Prop

/-- The plan `p` for the state `st`, made when the clock read `n`. -/
inductive Planned (K : Toolkit Cert Key) (T : Terms) (cfg : Config) (st : CaRotationState)
    (n : Int) : CaRotationPlan → Prop
  | consume (h : st.phase ≠ .steady) :
    Planned K T cfg st n { target := st.phase, keepSince := true, consumeForce := true }
  | tidy (h : st.phase = .steady) :
    Planned K T cfg st n { target := .steady, keepSince := true, del := strayRotationKeys st }
  | publish (h : st.phase = .steady) (seed : Nat) (force : Bool)
    (hminted : T.minted st.certPEM (K.newRootPEM seed).2) :
    Planned K T cfg st n
      { target := .publishing, consumeForce := force
        set := [(secretKeyCANextCert, (K.newRootPEM seed).1),
          (secretKeyCANextKey, (K.newRootPEM seed).2)] }
  | abort (h : st.phase = .publishing) (hmissing : st.nextCertPEM = [] ∨ st.nextKeyPEM = []) :
    Planned K T cfg st n { target := .steady, del := rotationScratchKeys }
  | repair (h : st.phase ≠ .steady) : Planned K T cfg st n { target := st.phase }
  | promote (h : st.phase = .publishing) :
    Planned K T cfg st n
      { target := .signing
        set := [(secretKeyCACert, st.nextCertPEM), (secretKeyCAKey, st.nextKeyPEM),
          (secretKeyCAPrevCert, st.certPEM),
          (secretKeyRotationRetireAfter, K.formatTime (n + cfg.retirementHold))]
        del := [secretKeyCANextCert, secretKeyCANextKey, secretKeyRotationHoldout]
        promotedAt := some n }
  | finish (h : st.phase = .signing) (hmissing : st.prevCertPEM = []) :
    Planned K T cfg st n { target := .steady, del := rotationScratchKeys }
  | holdout (h : st.phase = .signing) :
    Planned K T cfg st n
      { target := .signing, keepSince := true
        set := [(secretKeyRotationHoldout, K.formatTime n)] }
  | retire (h : st.phase = .signing) (hgate : retirementGate cfg st ≤ n) :
    Planned K T cfg st n
      { target := .steady
        del := [secretKeyCAPrevCert, secretKeyRotationHoldout, secretKeyRotationRetireAfter] }

/-! ## The versions of the Secret -/

/-- How a version follows from the one before it. -/
inductive Link (K : Toolkit Cert Key) (T : Terms) (v : Version Bytes Note) :
    Version Bytes Note → Prop
  | edit {w : Version Bytes Note} (hwriter : w.note.writer = .other)
    (hsame : ∀ k ∈ rotationKeys, field k w.secret = field k v.secret) : Link K T v w
  | rotate {w : Version Bytes Note} {cfg : Config} {n now : Int} {p : CaRotationPlan}
    (hknown : (readCARotation K v.secret).unknown = false)
    (hplan : Planned K T cfg (readCARotation K v.secret) n p)
    (hterms : ∀ P, p.promotedAt = some P → T.promoted cfg P)
    (htime : n ≤ w.note.committed) (hwriter : w.note.writer = .rotator cfg p.promotedAt)
    (hdata : w.secret.data = (p.write K now v.secret).data) : Link K T v w

/-- The versions since `v₀`, the newest first. -/
inductive History (K : Toolkit Cert Key) (T : Terms) (v₀ : Version Bytes Note) : Server → Prop
  | start : History K T v₀ [v₀]
  | write {w v : Version Bytes Note} {older : Server} (h : History K T v₀ (v :: older))
    (hlink : Link K T v w) : History K T v₀ (w :: v :: older)

variable {K : Toolkit Cert Key} {T : Terms} {v₀ : Version Bytes Note} {s : Server} {older : Server}
  {v : Version Bytes Note}

theorem History.suffix (h : History K T v₀ s) (hs : v :: older <:+ s) :
    History K T v₀ (v :: older) := by
  induction h with
  | start =>
    rcases suffix_cons_iff.mp hs with heq | hnil
    · rw [heq]
      exact .start
    · exact absurd (suffix_nil.mp hnil) (cons_ne_nil _ _)
  | write h hlink ih =>
    rcases suffix_cons_iff.mp hs with heq | hs
    · rw [heq]
      exact .write h hlink
    · exact ih hs

theorem History.link (h : History K T v₀ s) {w : Version Bytes Note} (hs : w :: v :: older <:+ s) :
    Link K T v w := by
  cases h.suffix hs with
  | write _ hlink => exact hlink

/-! ## The pact of the polls -/

/-- What a step of the run has to grant. -/
def grants (K : Toolkit Cert Key) (T : Terms) : ι → RotOp Cert → RotEnv → Int × Server → Prop
  | _, .newRootPEM, e, s =>
    ∀ seed, e.seed = some seed →
      ∀ v ∈ s.2, T.minted (field secretKeyCACert v.secret) (K.newRootPEM seed).2
  | _, .updateSecret _ (.rotator cfg (some P)), _, _ => T.promoted cfg P
  | _, _, _, _ => True

variable (K T v₀) in
/-- The versions are a history, and none is of a time to come. -/
structure Good (s : Int × Server) : Prop where
  ordered : Ordered s.2
  history : History K T v₀ s.2
  committed : ∀ v ∈ s.2, v.note.committed ≤ s.1

/-- The clock does not go back, and no version is lost. -/
def Later (s t : Int × Server) : Prop := s.1 ≤ t.1 ∧ s.2 <:+ t.2

theorem Later.refl (s : Int × Server) : Later s s := ⟨le_refl _, suffix_refl _⟩

theorem Later.trans {s t u : Int × Server} (h : Later s t) (h' : Later t u) : Later s u :=
  ⟨le_trans h.1 h'.1, h.2.trans h'.2⟩

variable (K T v₀) in
def pact : Pact (RotOp Cert) ι RotEnv (Int × Server) where
  inv := Good K T v₀
  cond := grants K T
  rely _ := Later
  guar _ := Later
  rely_refl _ := Later.refl
  rely_trans _ _ _ _ := Later.trans
  rely_of_guar _ _ _ _ _ _ _ h := h

variable (K T v₀) in
/-- The program of poll `i` keeps the pact, and ends as it says. -/
abbrev Polls (i : ι) {α : Type} :=
  Holds (α := α) (rotMachine K) (pact K T v₀) i

section Rules

variable {i : ι} {α : Type} {Q : α → Int × Server → Prop} {s : Int × Server} {t : Int × Server}

theorem Good.tick (h : Good K T v₀ s) (hle : s.1 ≤ t.1) (hsame : t.2 = s.2) :
    Good K T v₀ t ∧ Later s t := by
  refine ⟨⟨?_, ?_, fun v hv => ?_⟩, hle, ?_⟩
  · rw [hsame]
    exact h.ordered
  · rw [hsame]
    exact h.history
  · rw [hsame] at hv
    exact le_trans (h.committed v hv) hle
  · rw [hsame]

theorem ask_rule {o : RotOp Cert} {k : RotAns o → Rot Cert α}
    (hquiet : ∀ e (s s' : Server) (a : RotAns o), rotAct K o e s = some (a, s') → s' = s)
    (h : ∀ t e a u, Later s t → Good K T v₀ t → grants K T i o e t → Later t u →
      Good K T v₀ u → u.2 = t.2 → u.1 = e.now → rotAct K o e t.2 = some (a, u.2) →
      Polls K T v₀ i (k a) Q u) : Polls K T v₀ i (.op o k) Q s := by
  intro t ht hgood e hgrants a u hu
  obtain ⟨hle, hnow, hact⟩ := clocked_act hu
  have hsame : u.2 = t.2 := hquiet e t.2 u.2 a hact
  obtain ⟨hgood', hlater⟩ := Good.tick hgood hle hsame
  exact ⟨hgood', hlater, h t e a u ht hgood hgrants hlater hgood' hsame hnow hact⟩

theorem clock_rule {k : Int → Rot Cert α}
    (h : ∀ t, Later s t → Good K T v₀ t → Polls K T v₀ i (k t.1) Q t) :
    Polls K T v₀ i (.op .clock k) Q s := by
  apply ask_rule
  · intro e s s' a ha
    cases ha
    rfl
  · intro t e a u ht _ _ hlater hgood _ hnow hact
    obtain rfl : e.now = a := by
      have ha := congrArg Prod.fst (Option.some.inj hact)
      exact ha
    rw [← hnow]
    exact h u (ht.trans hlater) hgood

theorem holdouts_rule {root : Option Cert} {k : Nat → Rot Cert α}
    (h : ∀ t n, Later s t → Good K T v₀ t → Polls K T v₀ i (k n) Q t) :
    Polls K T v₀ i (.op (.holdoutsOn root) k) Q s := by
  apply ask_rule
  · intro e s s' a ha
    cases ha
    rfl
  · intro t e a u ht _ _ hlater hgood _ _ _
    exact h u a (ht.trans hlater) hgood

variable {sec : Secret Bytes}

theorem newRoot_rule {k : Option (Bytes × Bytes) → Rot Cert α} (hsec : Stored sec s.2)
    (hnone : ∀ t, Later s t → Good K T v₀ t → Polls K T v₀ i (k none) Q t)
    (hsome : ∀ t seed, Later s t → Good K T v₀ t →
      T.minted (field secretKeyCACert sec) (K.newRootPEM seed).2 →
      Polls K T v₀ i (k (some (K.newRootPEM seed))) Q t) :
    Polls K T v₀ i (.op .newRootPEM k) Q s := by
  apply ask_rule
  · intro e s s' a ha
    cases ha
    rfl
  · intro t e a u ht _ hgrants hlater hgood _ _ hact
    obtain rfl : e.seed.map K.newRootPEM = a := by
      have ha := congrArg Prod.fst (Option.some.inj hact)
      exact ha
    cases hseed : e.seed with
    | none => exact hnone u (ht.trans hlater) hgood
    | some seed =>
      obtain ⟨v, hv, rfl⟩ := hsec.mono ht.2
      exact hsome u seed (ht.trans hlater) hgood (hgrants seed hseed v hv)

variable {k : Except Err (Secret Bytes) → Rot Cert α}

theorem getSecret_rule (herror : ∀ t e, Later s t → Good K T v₀ t →
      Polls K T v₀ i (k (.error e)) Q t)
    (hok : ∀ t sec, Later s t → Good K T v₀ t → Stored sec t.2 → Polls K T v₀ i (k (.ok sec)) Q t) :
    Polls K T v₀ i (.op .getSecret k) Q s := by
  apply ask_rule
  · intro e s s' a ha
    cases ha
    rfl
  · intro t e a u ht _ _ hlater hgood hsame _ hact
    have ha : (deliver e.fault t.2 (kube.getSecret t.2, t.2)).1 = a :=
      congrArg Prod.fst (Option.some.inj hact)
    cases a with
    | error err => exact herror u err (ht.trans hlater) hgood
    | ok sec =>
      refine hok u sec (ht.trans hlater) hgood ?_
      rcases kube.deliver_cases (Prod.ext ha rfl : deliver e.fault t.2 (kube.getSecret t.2, t.2) =
        (.ok sec, (deliver e.fault t.2 (kube.getSecret t.2, t.2)).2)) with hget | ⟨herr, _⟩
      · rw [hsame]
        exact kube.stored_current (kube.getSecret_ok (congrArg Prod.fst hget).symm)
      · cases herr

variable {new : Secret Bytes}

theorem Good.push (hgood : Good K T v₀ s) (hle : s.1 ≤ t.1) {cur : Secret Bytes} {gap : Nat}
    {note : Note} (hcur : current s.2 = some cur)
    (hrv : new.resourceVersion = cur.resourceVersion + gap + 1) (hnote : note.committed ≤ t.1)
    (ht : t.2 = ⟨new, note⟩ :: s.2) (hlink : ∀ v, v.secret = cur → Link K T v ⟨new, note⟩) :
    Good K T v₀ t ∧ Later s t := by
  obtain ⟨v, older, hs, hv⟩ := current_eq_some hcur
  refine ⟨⟨?_, ?_, fun w hw => ?_⟩, hle, ?_⟩
  · rw [ht]
    refine hgood.ordered.push (by simp only; omega) fun c hc => ?_
    rw [hcur] at hc
    cases hc
    simp only
    omega
  · have hhist := hgood.history
    rw [ht, hs]
    rw [hs] at hhist
    exact .write hhist (hlink v hv)
  · rw [ht] at hw
    rcases mem_cons.mp hw with rfl | hw
    · exact hnote
    · exact le_trans (hgood.committed w hw) hle
  · rw [ht]
    exact suffix_cons _ _

theorem update_rule {writer : Writer} (hsec : Stored sec s.2)
    (hrv : new.resourceVersion = sec.resourceVersion) (hlink : ∀ v w : Version Bytes Note,
      (∀ cfg P, writer = .rotator cfg (some P) → T.promoted cfg P) → v.secret = sec →
      w.secret.data = new.data → w.note.writer = writer → s.1 ≤ w.note.committed → Link K T v w)
    (h : ∀ t x, Later s t → Good K T v₀ t → Polls K T v₀ i (k x) Q t) :
    Polls K T v₀ i (.op (.updateSecret new writer) k) Q s := by
  intro t ht hgood e hgrants a u hu
  obtain ⟨hle, hnow, hact⟩ := clocked_act hu
  have hpromoted : ∀ cfg P, writer = .rotator cfg (some P) → T.promoted cfg P := by
    intro cfg P hw
    subst hw
    exact hgrants
  -- the server after the write, if the network delivers it
  have hwrite : ∀ r s', kube.updateSecret e.gap ⟨writer, e.now⟩ new t.2 = (r, s') →
      Good K T v₀ (u.1, s') ∧ Later t (u.1, s') := by
    intro r s' hupd
    rcases updateSecret_cases hupd with ⟨rfl, _⟩ | ⟨cur, stored, hcur, hv, hst, _, rfl⟩
    · exact Good.tick hgood hle rfl
    have hsame : sec = cur := by
      apply hgood.ordered.eq_current (hsec.mono ht.2) hcur
      rw [← hrv, hv]
    subst hsame
    subst hst
    refine Good.push hgood hle hcur rfl (le_of_eq hnow.symm) rfl fun v hvs => ?_
    apply hlink v _ hpromoted hvs rfl rfl
    have := ht.1
    simp only
    omega
  have hnext : Good K T v₀ u ∧ Later t u := by
    have hdel : deliver e.fault t.2 (kube.updateSecret e.gap ⟨writer, e.now⟩ new t.2) = (a, u.2) :=
      Option.some.inj hact
    have hbefore : Good K T v₀ (u.1, t.2) ∧ Later t (u.1, t.2) := Good.tick hgood hle rfl
    have hafter := hwrite (kube.updateSecret e.gap ⟨writer, e.now⟩ new t.2).1 _ rfl
    exact kube.deliver_keeps (P := fun s' => Good K T v₀ (u.1, s') ∧ Later t (u.1, s'))
      hbefore hafter hdel
  exact ⟨hnext.1, hnext.2, h u a (ht.trans hnext.2) hnext.1⟩

/-! ## The polls -/

/-- What a plan made in the state `t` comes from. -/
def PlanIn (K : Toolkit Cert Key) (T : Terms) (cfg : Config) (st : CaRotationState)
    (p : CaRotationPlan) (t : Int × Server) : Prop :=
  ∃ n ≤ t.1, Planned K T cfg st n p

variable (r : CaRotator Cert Key)

theorem rotationDue_holds (st : CaRotationState) :
    Polls K T v₀ i (rotationDue K r st) (fun _ t => Later s t) s := by
  unfold rotationDue
  split
  · exact .done fun t ht _ => ht
  rw [call_bind]
  apply clock_rule
  intro t ht _
  exact .done fun u hu _ => ht.trans hu

theorem planSteady_holds (hgood : Good K T v₀ s) (hsec : Stored sec s.2)
    (hphase : (readCARotation K sec).phase = .steady) :
    Polls K T v₀ i (planSteady K r (readCARotation K sec))
      (fun x t => ∀ p, x = .ok (some p) → PlanIn K T r.cfg (readCARotation K sec) p t) s := by
  unfold planSteady
  split
  · apply Holds.done
    intro t _ _ p hp
    cases hp
    exact ⟨t.1, le_refl _, .tidy hphase⟩
  · refine (rotationDue_holds r _).seq hgood fun due t hgood' ht => ?_
    split
    · apply Holds.done
      intro u _ _ p hp
      cases hp
    · rw [call_bind]
      apply newRoot_rule (hsec.mono ht.2)
      · intro u _ _
        apply Holds.done
        intro v _ _ p hp
        cases hp
      · intro u seed _ _ hminted
        apply Holds.done
        intro v _ _ p hp
        cases hp
        exact ⟨v.1, le_refl _, .publish hphase seed _ hminted⟩

variable {cfg : Config} {n : Int} {p : CaRotationPlan} {st : CaRotationState}

theorem repairSince_planned (h : repairSince st = some p) (hphase : st.phase ≠ .steady) :
    Planned K T cfg st n p := by
  unfold repairSince at h
  split at h
  · cases h
  · cases h
    exact .repair hphase

theorem noPlan_holds : Polls K T v₀ i (.done none)
      (fun x t => ∀ p, x = some p → PlanIn K T cfg st p t) s := by
  apply Holds.done
  intro t _ _ p hp
  cases hp

theorem planned_holds (hn : n ≤ s.1) (h : Planned K T cfg st n p) : Polls K T v₀ i (.done (some p))
      (fun x t => ∀ p, x = some p → PlanIn K T cfg st p t) s := by
  apply Holds.done
  intro t ht _ p hp
  cases hp
  exact ⟨n, hn.trans ht.1, h⟩

theorem planPublishing_holds (hphase : st.phase = .publishing) :
    Polls K T v₀ i (planPublishing K r st)
      (fun x t => ∀ p, x = some p → PlanIn K T r.cfg st p t) s := by
  unfold planPublishing
  split
  · rename_i hmissing
    exact planned_holds le_rfl (.abort hphase (by simpa using hmissing))
  split
  · rename_i plan hrepair
    exact planned_holds le_rfl (repairSince_planned hrepair (by rw [hphase]; decide))
  rw [call_bind]
  apply clock_rule
  intro t _ _
  split
  · exact noPlan_holds
  · exact planned_holds le_rfl (.promote hphase)

theorem planSigning_holds (hphase : st.phase = .signing) : Polls K T v₀ i (planSigning K r st)
      (fun x t => ∀ p, x = some p → PlanIn K T r.cfg st p t) s := by
  unfold planSigning
  split
  · rename_i hmissing
    exact planned_holds le_rfl (.finish hphase (by simpa using hmissing))
  split
  · rename_i plan hrepair
    exact planned_holds le_rfl (repairSince_planned hrepair (by rw [hphase]; decide))
  rw [call_bind]
  apply clock_rule
  intro t _ _
  split
  · exact noPlan_holds
  rename_i hgate
  split
  · exact noPlan_holds
  rw [call_bind]
  apply holdouts_rule
  intro u n htu _
  split
  · split
    · exact noPlan_holds
    · exact planned_holds htu.1 (.holdout hphase)
  · split
    · exact noPlan_holds
    · exact planned_holds htu.1 (.retire hphase (not_lt.mp hgate))

theorem plan_holds (hgood : Good K T v₀ s) (hsec : Stored sec s.2) :
    Polls K T v₀ i (plan K r (readCARotation K sec))
      (fun x t => ∀ p, x = .ok (some p) → (readCARotation K sec).unknown = false ∧
        PlanIn K T r.cfg (readCARotation K sec) p t) s := by
  unfold plan
  split
  · apply Holds.done
    intro t _ _ p hp
    cases hp
  · rename_i hknown
    have hknown : (readCARotation K sec).unknown = false := by simpa using hknown
    split
    · rename_i hforce
      apply Holds.done
      intro t _ _ p hp
      cases hp
      exact ⟨hknown, t.1, le_refl _, .consume hforce.2⟩
    · split
      · rename_i hphase
        refine .mono (planSteady_holds r hgood hsec hphase) fun x t _ hx p hp => ?_
        exact ⟨hknown, hx p hp⟩
      · rename_i hphase
        refine .map (Holds.mono (planPublishing_holds r hphase) fun x t _ hx p hp => ?_)
        cases hp
        exact ⟨hknown, hx p rfl⟩
      · rename_i hphase
        refine .map (Holds.mono (planSigning_holds r hphase) fun x t _ hx p hp => ?_)
        cases hp
        exact ⟨hknown, hx p rfl⟩

theorem advance_holds (hgood : Good K T v₀ s) (hsec : Stored sec s.2) :
    Polls K T v₀ i (advance K r sec (readCARotation K sec)) (fun _ _ => True) s := by
  have htriv : ∀ x t, Polls K T v₀ i
      (.done x : Rot Cert (Except StepErr (Option CaRotationState))) (fun _ _ => True) t :=
    fun x t => Holds.done fun _ _ _ => trivial
  refine (Holds.frame (F := fun t => Later s t)
    (fun _ _ h h' => h'.trans h) (fun _ _ h h' => h'.trans h) (Later.refl s)
    (plan_holds r hgood hsec)).seq hgood fun x t _ hx => ?_
  obtain ⟨hx, hst⟩ := hx
  cases x with
  | error e => exact htriv _ t
  | ok x =>
    cases x with
    | none => exact htriv _ t
    | some p =>
      obtain ⟨hknown, n, hn, hplan⟩ := hx p rfl
      simp only [call_bind]
      apply clock_rule
      intro u htu _
      refine update_rule (hsec.mono (hst.trans htu).2) rfl ?_ ?_
      · intro v w hterms hv hdata hwriter htime
        subst hv
        refine .rotate hknown hplan (fun P hP => hterms r.cfg P ?_) ?_ hwriter hdata
        · rw [hP]
        · exact le_trans hn (le_trans htu.1 htime)
      · intro v x _ _
        split <;> exact htriv _ v

theorem poll_holds : Polls K T v₀ i (poll K r) (fun _ _ => True) s := by
  have htriv : ∀ x t, Polls K T v₀ i
      (.done x : Rot Cert (CaRotator Cert Key × Option StepErr)) (fun _ _ => True) t :=
    fun x t => Holds.done fun _ _ _ => trivial
  unfold poll
  rw [call_bind]
  apply getSecret_rule
  · intro t e _ _
    exact htriv _ t
  intro t sec _ hgood' hsec
  simp only
  split
  · exact htriv _ t
  rename_i r' _
  refine (advance_holds r' hgood' hsec).seq hgood' fun x u _ _ => ?_
  split
  · exact htriv _ u
  · exact htriv _ u
  · split <;> exact htriv _ u

theorem edit_holds (sec : Secret Bytes) :
    Polls K T v₀ i (Prog.call (RotOp.edit sec) : Rot Cert Unit) (fun _ _ => True) s := by
  intro t ht hgood e _ a u hu
  obtain ⟨hle, hnow, hact⟩ := clocked_act hu
  have hnext : Good K T v₀ u ∧ Later t u := by
    simp only [rotAct] at hact
    split at hact
    · cases hact
    rename_i cur hcur
    obtain ⟨new, hnew, hpair⟩ := Option.map_eq_some_iff.mp hact
    unfold edited at hnew
    split at hnew
    · rename_i hsame
      cases hnew
      have hu2 := (congrArg Prod.snd hpair).symm
      rcases hupd : kube.updateSecret e.gap ⟨.other, e.now⟩
        { sec with resourceVersion := cur.resourceVersion } t.2 with ⟨r, s'⟩
      rw [hupd] at hu2
      simp only at hu2
      subst hu2
      rcases updateSecret_cases hupd with ⟨hs, _⟩ | ⟨cur', stored, hcur', _, hst, _, hs⟩
      · exact Good.tick hgood hle hs
      subst hst
      rw [hcur] at hcur'
      cases hcur'
      refine Good.push hgood hle hcur rfl (le_of_eq hnow.symm) hs fun v hv => ?_
      refine .edit rfl fun k hk => ?_
      subst hv
      simp only [all_eq_true, decide_eq_true_eq] at hsame
      exact hsame k hk
    · cases hnew
  exact ⟨hnext.1, hnext.2, fun _ _ _ => trivial⟩

theorem program_holds (q : Request Cert Key) :
    Polls K T v₀ i (q.program K) (fun _ _ => True) s := by
  cases q with
  | poll r => exact .map (poll_holds r)
  | edit sec => exact edit_holds sec

end Rules

/-! ## Whole runs -/

/-- The version that the run begins with. -/
def firstVersion (t : Int) (sec : Secret Bytes) : Version Bytes Note := ⟨sec, ⟨.other, t⟩⟩

/-- In every run the versions of the Secret are a history, and the clock has passed
them all. -/
theorem run_good [DecidableEq ι] {t : Int} {sec : Secret Bytes} {calls : ι → Request Cert Key}
    {ls : List (ι × RotEnv)} {c : Conf (@RotAns Cert) ι (Int × Server) Unit}
    (hrv : 0 < sec.resourceVersion) (hmeets : Meets (rotMachine K) (grants K T)
      (system K t sec calls) ls) (hrun : run (rotMachine K) (system K t sec calls) ls = some c) :
    Good K T (firstVersion t sec) c.shared := by
  have hstart : Good K T (firstVersion t sec) (system K t sec calls).shared := by
    refine ⟨?_, .start, ?_⟩
    · refine ordered_nil.push hrv fun cur hcur => ?_
      cases hcur
    · intro v hv
      rw [mem_singleton.mp hv]
      exact le_refl _
  exact (run_holds (P := pact K T (firstVersion t sec)) (Q := fun _ _ _ => True) hstart
    (fun j => program_holds (calls j)) hmeets hrun).1

end prom_fleet.rotation
