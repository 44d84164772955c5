-- The order of an operator to rotate now: the annotation on the CA Secret. Each version of the
-- Secret is traced back to the poll that wrote it and to its plan, and the laws of the
-- annotation follow from what a plan may do with it.
import PromFleet.CARotationEvents
import PromFleet.CARotationTrust

namespace prom_fleet.rotation

open interleave gotime List Prog Option kube

variable {Cert Key ι : Type} {K : Toolkit Cert Key}

/-! ## What a plan does with the annotation -/

/-- What holds of every plan `p` for the state `st`. -/
structure Heeds (st : CaRotationState) (p : CaRotationPlan) : Prop where
  known : st.unknown = false
  nodup : (p.set.map Prod.fst).Nodup
  records : secretKeyRotationPhase ∉ p.del ∧ secretKeyRotationPhase ∉ p.set.map Prod.fst
  consume : p.consumeForce = true → st.force ≠ "" ∧ (st.phase = .steady → p.target = .publishing)
  start : st.phase = .steady → p.target = .publishing → p.consumeForce = decide (st.force ≠ "")
  target : p.target = .publishing →
    st.phase = .steady ∨ (st.phase = .publishing ∧ p.set = [] ∧ p.del = [])

section Plans

variable {st : CaRotationState} {r : CaRotator Cert Key} {p : CaRotationPlan}

variable (hknown : st.unknown = false)

include hknown

/-- A plan that keeps the annotation and does not lead to the publishing phase. -/
theorem Heeds.quiet (hnodup : (p.set.map Prod.fst).Nodup)
    (hrecords : secretKeyRotationPhase ∉ p.del ∧ secretKeyRotationPhase ∉ p.set.map Prod.fst)
    (hkeep : p.consumeForce = false) (htarget : p.target ≠ .publishing) : Heeds st p where
  known := hknown
  nodup := hnodup
  records := hrecords
  consume h := by simp [hkeep] at h
  start _ h := absurd h htarget
  target h := absurd h htarget

/-- A plan that writes no key but the phase, in a phase other than steady. -/
theorem Heeds.stay (hphase : st.phase ≠ .steady) (hset : p.set = [])
    (hdel : p.del = []) (htarget : p.target = st.phase)
    (hforce : p.consumeForce = true → st.force ≠ "") : Heeds st p where
  known := hknown
  nodup := by simp [hset]
  records := by simp [hset, hdel]
  consume h := ⟨hforce h, fun hs => absurd hs hphase⟩
  start h := absurd h hphase
  target h := Or.inr ⟨htarget.symm.trans h, hset, hdel⟩

theorem planSteady_heeds (hphase : st.phase = .steady) :
    (planSteady K r st).Returns fun x => ∀ p, x = .ok (some p) → Heeds st p := by
  unfold planSteady
  split
  · -- stray keys are removed, and the phase is not one of them
    intro p hp
    cases hp
    refine .quiet hknown nodup_nil ⟨?_, not_mem_nil⟩ rfl (by simp)
    intro hmem
    exact absurd (mem_strayRotationKeys hmem) (by decide)
  · have hdue : (rotationDue K r st).Returns fun _ => True := by
      unfold rotationDue
      split
      · trivial
      · exact fun _ => trivial
    refine hdue.bind ?_
    intro due _
    split
    · intro p hp
      cases hp
    intro root
    cases root with
    | none =>
      intro p hp
      cases hp
    | some root =>
      intro p hp
      cases hp
      refine ⟨hknown, by simp; decide, by simp; decide, ?_, fun _ _ => rfl, fun _ => .inl hphase⟩
      intro h
      simp only [decide_eq_true_eq] at h
      exact ⟨h, fun _ => rfl⟩

theorem repairSince_heeds (hphase : st.phase ≠ .steady)
    (h : repairSince st = some p) : Heeds st p := by
  unfold repairSince at h
  split at h
  · cases h
  · cases h
    exact .stay hknown hphase rfl rfl rfl fun h => by cases h

theorem planPublishing_heeds (hphase : st.phase = .publishing) :
    (planPublishing K r st).Returns fun x => ∀ p, x = some p → Heeds st p := by
  unfold planPublishing
  split
  · intro p hp
    cases hp
    exact .quiet hknown nodup_nil (by decide) rfl (by simp)
  · split
    · rename_i plan hrepair
      intro p hp
      cases hp
      exact repairSince_heeds hknown (by simp [hphase]) hrepair
    · rw [call_bind]
      intro now
      dsimp only
      split
      · intro p hp
        cases hp
      · intro p hp
        cases hp
        exact .quiet hknown (by simp; decide) (by simp; decide) rfl (by simp)

theorem planSigning_heeds (hphase : st.phase = .signing) :
    (planSigning K r st).Returns fun x => ∀ p, x = some p → Heeds st p := by
  have hnone : ∀ p, (none : Option CaRotationPlan) = some p → Heeds st p := by
    intro p hp
    cases hp
  unfold planSigning
  split
  · intro p hp
    cases hp
    exact .quiet hknown nodup_nil (by decide) rfl (by simp)
  · split
    · rename_i plan hrepair
      intro p hp
      cases hp
      exact repairSince_heeds hknown (by simp [hphase]) hrepair
    · rw [call_bind]
      intro now
      dsimp only
      split
      · exact hnone
      split
      · exact hnone
      rw [call_bind]
      intro n
      dsimp only
      split
      · split
        · exact hnone
        · intro p hp
          cases hp
          exact .quiet hknown (by simp) (by simp; decide) rfl (by simp)
      · split
        · exact hnone
        · intro p hp
          cases hp
          exact .quiet hknown nodup_nil (by simp; decide) rfl (by simp)

omit hknown

theorem plan_heeds (r : CaRotator Cert Key) (st : CaRotationState) :
    (plan K r st).Returns fun x => ∀ p, x = .ok (some p) → Heeds st p := by
  unfold plan
  split
  · intro p hp
    cases hp
  rename_i hknown
  rw [Bool.not_eq_true] at hknown
  split
  · rename_i hforce
    intro p hp
    cases hp
    exact .stay hknown hforce.2 rfl rfl rfl fun _ => hforce.1
  · split
    · rename_i hphase
      exact planSteady_heeds hknown hphase
    · rename_i hphase
      refine (planPublishing_heeds hknown hphase).bind fun x hx => ?_
      intro p hp
      exact hx p (by simpa using hp)
    · rename_i hphase
      refine (planSigning_heeds hknown hphase).bind fun x hx => ?_
      intro p hp
      exact hx p (by simpa using hp)

/-! ## The polls -/

/-- After a poll has read `sec`, it asks, or it writes `sec` as a plan for it says. -/
def fromRead (K : Toolkit Cert Key) (sec : Secret Bytes) (o : RotOp Cert) : Prop :=
  o.asks = true ∨ ∃ p now cfg P, Heeds (readCARotation K sec) p ∧
    o = .updateSecret (p.write K now sec) (.rotator cfg P)

theorem advance_only (r : CaRotator Cert Key) (sec : Secret Bytes) :
    (advance K r sec (readCARotation K sec)).Only (fromRead K sec) := by
  refine (plan_only.mono fun o ho => Or.inl ho).bind_returns (plan_heeds r _) ?_
  intro x hx
  cases x with
  | error e => trivial
  | ok plan =>
    cases plan with
    | none => trivial
    | some p =>
      refine ⟨.inl rfl, fun now => ⟨.inr ⟨p, now, r.cfg, p.promotedAt, hx p rfl, rfl⟩, ?_⟩⟩
      intro answer
      cases answer with
      | error e => cases e <;> trivial
      | ok updated => trivial

/-- The operations of a poll: it reads the Secret, and all that comes after goes by what it
has read. -/
theorem poll_events {i : ι} {s t : Int × Server} {evs : List (RotEvent Cert)} {q : Rot Cert Unit}
    (h : Path (rotMachine K) i (Request.program K (.poll r)) s evs q t) :
    evs = [] ∨ ∃ read rest, evs = read :: rest ∧ read.op = .getSecret ∧
      (rest = [] ∨ ∃ sec, current read.before.2 = some sec ∧
        ∀ ev ∈ rest, fromRead K sec ev.op) := by
  change Path _ _ (poll K r >>= _) _ _ _ _ at h
  unfold poll at h
  rw [call_bind, op_bind] at h
  rcases h.first with ⟨hnil, _⟩ | ⟨e, answer, s₁, t₁, rest, _, hact, hevs, hrest⟩
  · exact .inl hnil
  refine .inr ⟨_, rest, hevs, rfl, ?_⟩
  cases answer with
  | error e => exact .inl hrest.of_done.1
  | ok sec =>
    refine .inr ⟨sec, current_of_read hact, hrest.only ?_⟩
    dsimp only
    split
    · trivial
    refine .bind (Prog.Only.bind (advance_only _ sec) ?_) fun _ => trivial
    intro x
    cases x with
    | error e => trivial
    | ok advanced =>
      cases advanced with
      | none => trivial
      | some st =>
        dsimp only
        split <;> trivial

end Plans

/-! ## The write behind a version -/

/-- How the version `w` came on top of `v`: an edit of another writer, which keeps the keys of
the rotation, or a poll that had read `v` and wrote its plan. -/
inductive Replaces (K : Toolkit Cert Key) (calls : ι → Request Cert Key)
    (v w : Version Bytes Note) : Prop
  | edit (i : ι) (new : Secret Bytes) (hcall : calls i = .edit new)
    (hwriter : w.note.writer = .other) (hnew : w.secret.annotations = new.annotations)
    (hsame : ∀ k ∈ rotationKeys, field k w.secret = field k v.secret)
  | rotate (p : CaRotationPlan) (now : Int) (cfg : Config) (P : Option Int)
    (hplan : Heeds (readCARotation K v.secret) p) (hwriter : w.note.writer = .rotator cfg P)
    (hdata : w.secret.data = (p.write K now v.secret).data)
    (hnotes : w.secret.annotations = (p.write K now v.secret).annotations)

variable {older : Server} {v w : Version Bytes Note}

theorem edit_lands {i : ι} {sec : Secret Bytes} {e : RotEnv} {a : Unit} {s t : Int × Server}
    (h : (rotMachine K).act i (.edit sec : RotOp Cert) e s = some (a, t)) (hs : s.2 = v :: older)
    (ht : t.2 = w :: v :: older) : w.note.writer = .other ∧ w.secret.annotations = sec.annotations ∧
      ∀ k ∈ rotationKeys, field k w.secret = field k v.secret := by
  have hact := (clocked_act h).2.2
  simp only [rotAct, hs, current, List.head?_cons, map_some] at hact
  obtain ⟨new, hnew, hpair⟩ := map_eq_some_iff.mp hact
  have hstored := (congrArg Prod.snd hpair).trans ht
  rcases hupd : kube.updateSecret e.gap ⟨.other, e.now⟩ new (v :: older) with ⟨x, s'⟩
  rw [hupd] at hstored
  unfold edited at hnew
  split at hnew
  · rename_i hkeys
    cases hnew
    rcases updateSecret_cases hupd with ⟨hsame, _⟩ | ⟨cur, stored, _, _, hst, _, hpush⟩
    · rw [hsame] at hstored
      exact absurd hstored.symm (cons_ne_self _ _)
    rw [hpush, hst] at hstored
    obtain ⟨rfl, _⟩ := List.cons.inj hstored
    refine ⟨rfl, rfl, ?_⟩
    intro k hk
    exact of_decide_eq_true (all_eq_true.mp hkeys k hk)
  · cases hnew

section Runs

variable [DecidableEq ι] {t : Int} {sec : Secret Bytes} {calls : ι → Request Cert Key}
  {ls : List (ι × RotEnv)} {c : Conf (@RotAns Cert) ι (Int × Server) Unit} {v : Version Bytes Note}

/-- Every version of a run replaces the one below it in one of the two ways. -/
theorem replaces_of_run (hrv : 0 < sec.resourceVersion)
    (hrun : run (rotMachine K) (system K t sec calls) ls = some c)
    (hw : w :: v :: older <:+ c.shared.2) : Replaces K calls v w := by
  rcases written_of_run hrun hw with hstart | ⟨i, ev, hev, hbefore, hafter⟩
  · have := hstart.length_le
    simp [system] at this
  have hpath := path_of_run (i := i) hrun
  have hacts := hpath.acts ev hev
  have hdated := (hpath.keeps (I := Dated) (fun _ _ _ _ _ _ hact => Dated.act hact)
    (dated_start hrv)).2 ev hev
  cases hcall : calls i with
  | edit new =>
    rw [show (system K t sec calls).thread i = .op (.edit new) .done by
      simp only [system, hcall]; rfl] at hpath
    have hop := hpath.only (S := fun o => o = .edit new) ⟨rfl, fun _ => trivial⟩ ev hev
    obtain ⟨o, e, a, s₁, t₁⟩ := ev
    obtain rfl : o = .edit new := hop
    obtain ⟨hwriter, hnew, hsame⟩ := edit_lands hacts hbefore hafter
    exact .edit i new hcall hwriter hnew hsame
  | poll r =>
    rw [show (system K t sec calls).thread i = Request.program K (.poll r) by
      simp only [system, hcall]] at hpath
    obtain ⟨_, _, hsame | ⟨cur, new, writer, hcur, hversion, hop, hpush⟩⟩ := act_cases hacts
    · rw [hbefore, hafter] at hsame
      exact absurd hsame (cons_ne_self _ _)
    rcases poll_events hpath with hnil | ⟨read, rest, hevs, hread, hrest⟩
    · rw [hnil] at hev
      cases hev
    rw [hevs] at hpath hev
    rcases mem_cons.mp hev with rfl | hev
    · rw [hread] at hop
      rcases hop with hop | ⟨_, hop⟩ <;> cases hop
    rcases hrest with rfl | ⟨read_sec, hsec, hfrom⟩
    · cases hev
    rcases hfrom ev hev with hasks | ⟨p, now, cfg, P, hplan, hwrite⟩
    · rcases hop with hop | ⟨_, hop⟩ <;> rw [hop] at hasks <;> cases hasks
    -- the update went through, so the version that was read is still the newest
    rw [hwrite] at hop
    obtain ⟨hnew, rfl⟩ : p.write K now read_sec = new ∧ Writer.rotator cfg P = writer := by
      rcases hop with hop | ⟨_, hop⟩ <;> cases hop
      exact ⟨rfl, rfl⟩
    subst hnew
    obtain ⟨hcopy, _, hsince⟩ := since_read hpath hread
    obtain ⟨⟨_, newer, hnewer, _⟩, _⟩ := hsince ev hev
    have hstored : Stored read_sec ev.before.2 := by
      apply (stored_current hsec).mono
      rw [hnewer, hcopy]
      exact suffix_append _ _
    obtain rfl := hdated.1.ordered.eq_current hstored hcur hversion
    rw [hbefore] at hcur
    cases hcur
    rw [hafter, hbefore] at hpush
    obtain ⟨rfl, _⟩ := List.cons.inj hpush
    exact .rotate p now cfg P hplan rfl rfl rfl

theorem oldest_of_run (hrun : run (rotMachine K) (system K t sec calls) ls = some c)
    (hv : [v] <:+ c.shared.2) : v.note.writer = .other := by
  rcases written_of_run hrun hv with hstart | ⟨i, ev, hev, hbefore, hafter⟩
  · have heq : [v] = [⟨sec, ⟨.other, t⟩⟩] := hstart.eq_of_length rfl
    cases heq
    rfl
  · have hacts := (path_of_run hrun).acts ev hev
    obtain ⟨_, _, hsame | ⟨cur, _, _, hcur, _⟩⟩ := act_cases hacts
    · rw [hbefore, hafter] at hsame
      cases hsame
    · rw [hbefore] at hcur
      cases hcur

end Runs

/-! ## The annotation along the versions -/

/-- The order that stands in the Secret. -/
def rotateNow (v : Version Bytes Note) : Option String :=
  v.secret.annotations.lookup annotationRotateNow

def phaseOf (K : Toolkit Cert Key) (v : Version Bytes Note) : CaPhase :=
  (readCARotation K v.secret).phase

/-- The resource version with which the order that stands was set. -/
def order : Server → Option Nat
  | [] => none
  | w :: older =>
    match rotateNow w, w.note.writer with
    | none, _ => none
    | some _, .other => some w.secret.resourceVersion
    | some _, .rotator _ _ => order older

/-- The write of `w` on `v` starts a rotation. -/
def Starts (K : Toolkit Cert Key) (v w : Version Bytes Note) : Prop :=
  phaseOf K v = .steady ∧ phaseOf K w = .publishing

/-- The write of `w` on `v` uses up the order that stands in `v`, or starts a rotation
for it. -/
def Answers (K : Toolkit Cert Key) (v w : Version Bytes Note) : Prop :=
  rotateNow w = none ∨ ((rotateNow v).getD "" ≠ "" ∧ Starts K v w)

variable {now : Int} {p : CaRotationPlan}

theorem rotateNow_write (h : w.secret.annotations = (p.write K now v.secret).annotations) :
    rotateNow w = if p.consumeForce then none else rotateNow v := by
  have hne : annotationRotateNow ≠ annotationRotateAccepted := by decide
  unfold rotateNow
  rw [h]
  unfold CaRotationPlan.write
  by_cases hforce : p.consumeForce = true
  · simp [hforce, Finmap.lookup_insert_of_ne _ hne]
  · simp [hforce]

theorem Heeds.phase_after {st : CaRotationState} (h : Heeds st p)
    (hdata : w.secret.data = (p.write K now v.secret).data) : phaseOf K w = p.target := by
  apply (phase_of_text _).1
  rw [read_write h.nodup hdata]
  have hfind : p.set.find? (fun e => decide (e.1 = secretKeyRotationPhase)) = none := by
    apply List.find?_eq_none.mpr
    intro e he hkey
    exact h.records.2 (mem_map.mpr ⟨e, he, of_decide_eq_true hkey⟩)
  simp [CaRotationPlan.fieldAfter, h.records.1, hfind]

section Laws

variable {calls : ι → Request Cert Key} {v w : Version Bytes Note}

theorem phaseOf_edit (hsame : ∀ k ∈ rotationKeys, field k w.secret = field k v.secret) :
    phaseOf K w = phaseOf K v := by
  unfold phaseOf
  rw [read_edit hsame]

variable (h : Replaces K calls v w)

include h

theorem Replaces.removed
    (hset : ∀ i new, calls i = .edit new → new.annotations.lookup annotationRotateNow ≠ none)
    (hbefore : rotateNow v ≠ none) (hafter : rotateNow w = none) :
    Starts K v w ∨ phaseOf K v = .publishing ∨ phaseOf K v = .signing := by
  cases h with
  | edit i new hcall _ hnew _ =>
    unfold rotateNow at hafter
    rw [hnew] at hafter
    exact absurd hafter (hset i new hcall)
  | rotate p now cfg P hplan _ hdata hnotes =>
    rw [rotateNow_write hnotes] at hafter
    split at hafter
    · rename_i hforce
      cases hphase : phaseOf K v with
      | steady =>
        left
        refine ⟨hphase, ?_⟩
        rw [hplan.phase_after hdata]
        exact (hplan.consume hforce).2 hphase
      | publishing | signing => simp
    · exact absurd hafter hbefore

/-- A rotation that starts while an order stands uses the order up. -/
theorem Replaces.answered (hans : Answers K v w) : rotateNow w = none := by
  rcases hans with hnone | ⟨horder, hsteady, hpublishing⟩
  · exact hnone
  cases h with
  | edit i new _ _ _ hsame =>
    rw [phaseOf_edit hsame, hsteady] at hpublishing
    cases hpublishing
  | rotate p now cfg P hplan _ hdata hnotes =>
    rw [hplan.phase_after hdata] at hpublishing
    have hforce : p.consumeForce = decide ((readCARotation K v.secret).force ≠ "") :=
      hplan.start hsteady hpublishing
    rw [rotateNow_write hnotes, hforce]
    exact if_pos (decide_eq_true horder)

/-- The successor is the same through the publishing phase, and only a steady state leads
there. -/
theorem Replaces.publishing (hphase : phaseOf K w = .publishing) :
    phaseOf K v = .steady ∨ phaseOf K v = .publishing ∧
      field secretKeyCANextCert w.secret = field secretKeyCANextCert v.secret ∧
      field secretKeyCANextKey w.secret = field secretKeyCANextKey v.secret := by
  cases h with
  | edit i new _ _ _ hsame =>
    rw [phaseOf_edit hsame] at hphase
    exact .inr ⟨hphase, hsame _ (by decide), hsame _ (by decide)⟩
  | rotate p now cfg P hplan _ hdata _ =>
    rw [hplan.phase_after hdata] at hphase
    rcases hplan.target hphase with hsteady | ⟨hpublishing, hset, hdel⟩
    · exact .inl hsteady
    have hkeep : ∀ k, k ≠ secretKeyRotationPhase → k ≠ secretKeyRotationSince →
        field k w.secret = field k v.secret := by
      intro k hk hk'
      rw [read_write hplan.nodup hdata]
      simp [CaRotationPlan.fieldAfter, hset, hdel, hk, hk']
    exact .inr ⟨hpublishing, hkeep _ (by decide) (by decide), hkeep _ (by decide) (by decide)⟩

/-- A rotator sets no order. -/
theorem Replaces.inherited (hw : rotateNow w ≠ none) :
    w.note.writer = .other ∨ rotateNow v ≠ none := by
  cases h with
  | edit _ _ _ hwriter => exact .inl hwriter
  | rotate p now cfg P _ _ _ hnotes =>
    right
    intro hnone
    rw [rotateNow_write hnotes, hnone, ite_self] at hw
    exact hw rfl

end Laws

/-! ## The settings of the annotation -/

variable {n : Nat} {s : Server}

theorem order_le (ho : Ordered s) (h : order s = some n) :
    ∀ cur, current s = some cur → n ≤ cur.resourceVersion := by
  induction s with
  | nil => cases h
  | cons w older ih =>
    intro cur hcur
    obtain rfl : w.secret = cur := Option.some.inj hcur
    unfold order at h
    split at h
    · cases h
    · cases h
      exact le_refl _
    have hpair := pairwise_cons.mp ho.pairwise
    have holder : Ordered older := ⟨hpair.2, fun x hx => ho.pos x (mem_cons_of_mem _ hx)⟩
    cases older with
    | nil => cases h
    | cons x rest =>
      have hle := ih holder h x.secret rfl
      have hlt := hpair.1 x mem_cons_self
      omega

/-- An order that stands was set after the last version without one. -/
theorem lt_order (ho : Ordered s) (h : order s = some n) (hw : w :: older <:+ s)
    (hnone : rotateNow w = none) : w.secret.resourceVersion < n := by
  induction s with
  | nil => cases h
  | cons x rest ih =>
    rcases suffix_cons_iff.mp hw with heq | hw
    · cases heq
      simp [order, hnone] at h
    have hpair := pairwise_cons.mp ho.pairwise
    unfold order at h
    split at h
    · cases h
    · cases h
      exact hpair.1 w (hw.subset mem_cons_self)
    · exact ih ⟨hpair.2, fun y hy => ho.pos y (mem_cons_of_mem _ hy)⟩ h hw

theorem answers_once (ho : Ordered s) {w' v' : Version Bytes Note} {older' : Server}
    (hs : w :: v :: older <:+ s) (hs' : w' :: v' :: older' <:+ s)
    (horder : order (v :: older) = some n) (horder' : order (v' :: older') = some n)
    (hnone : rotateNow w = none) (hnone' : rotateNow w' = none) :
    w :: v :: older = w' :: v' :: older' := by
  have hsub : ∀ {l : Server}, l <:+ s → Ordered l := by
    intro l hl
    exact ⟨ho.pairwise.sublist hl.sublist, fun x hx => ho.pos x (hl.subset hx)⟩
  -- the order was set before the first of the two, and it would be set again after it
  have hlater : ∀ {x y x' y' : Version Bytes Note} {l l' : Server}, x :: y :: l <:+ s →
      x' :: y' :: l' <:+ s → order (y :: l) = some n → order (y' :: l') = some n →
      rotateNow x = none → ¬ x :: y :: l <:+ y' :: l' := by
    intro x y x' y' l l' hx hx' hy hy' hxnone hsuffix
    have hlow := order_le (hsub ((suffix_cons _ _).trans hx)) hy y.secret rfl
    have hhigh := lt_order (hsub ((suffix_cons _ _).trans hx')) hy' hsuffix hxnone
    have hstep := (pairwise_cons.mp (hsub hx).pairwise).1 y mem_cons_self
    omega
  rcases suffix_or_suffix_of_suffix hs hs' with h | h
  · rcases suffix_cons_iff.mp h with heq | h
    · exact heq
    · exact absurd h (hlater hs hs' horder horder' hnone)
  · rcases suffix_cons_iff.mp h with heq | h
    · exact heq.symm
    · exact absurd h (hlater hs' hs horder' horder hnone')

section Orders

variable [DecidableEq ι]

/-- Every order goes back to a write that has set it. -/
theorem order_of_run {t : Int} {sec : Secret Bytes} {calls : ι → Request Cert Key}
    {ls : List (ι × RotEnv)} {c : Conf (@RotAns Cert) ι (Int × Server) Unit}
    (hrv : 0 < sec.resourceVersion)
    (hrun : run (rotMachine K) (system K t sec calls) ls = some c)
    (hv : v :: older <:+ c.shared.2) (hset : rotateNow v ≠ none) :
    ∃ n, order (v :: older) = some n := by
  obtain ⟨text, htext⟩ := ne_none_iff_exists'.mp hset
  induction older generalizing v text with
  | nil => exact ⟨v.secret.resourceVersion, by simp [order, htext, oldest_of_run hrun hv]⟩
  | cons u older ih =>
    cases hwriter : v.note.writer with
    | other => exact ⟨v.secret.resourceVersion, by simp [order, htext, hwriter]⟩
    | rotator cfg P =>
      rcases (replaces_of_run hrv hrun hv).inherited hset with hother | hbefore
      · rw [hwriter] at hother
        cases hother
      obtain ⟨text', htext'⟩ := ne_none_iff_exists'.mp hbefore
      obtain ⟨n, hn⟩ := ih ((suffix_cons _ _).trans hv) hbefore text' htext'
      refine ⟨n, ?_⟩
      unfold order
      simp only [htext, hwriter]
      exact hn

/-- In every run of polls and of writes that set the annotation, the annotation goes only with a
write that starts a rotation or is made while one is in progress, each setting of it is answered by
at most one write, and a rotation starts only where none is in progress. -/
theorem rotate_now_is_honoured_once (K : Toolkit Cert Key) (t : Int) (sec : Secret Bytes)
    (hrv : 0 < sec.resourceVersion) (calls : ι → Request Cert Key)
    (hset : ∀ i new, calls i = .edit new → new.annotations.lookup annotationRotateNow ≠ none)
    (ls : List (ι × RotEnv)) (c : Conf (@RotAns Cert) ι (Int × Server) Unit)
    (hrun : run (rotMachine K) (system K t sec calls) ls = some c) :
    (∀ w v older, w :: v :: older <:+ c.shared.2 →
      (rotateNow v ≠ none → rotateNow w = none →
        Starts K v w ∨ phaseOf K v = .publishing ∨ phaseOf K v = .signing) ∧
      (phaseOf K v = .steady → phaseOf K w ≠ .publishing → rotateNow v ≠ none →
        rotateNow w ≠ none) ∧
      (phaseOf K w = .publishing → phaseOf K v = .steady ∨ phaseOf K v = .publishing ∧
        field secretKeyCANextCert w.secret = field secretKeyCANextCert v.secret ∧
        field secretKeyCANextKey w.secret = field secretKeyCANextKey v.secret)) ∧
    (∀ v older, v :: older <:+ c.shared.2 → rotateNow v ≠ none → ∃ n, order (v :: older) = some n) ∧
    ∀ w v older w' v' older' n, w :: v :: older <:+ c.shared.2 →
      w' :: v' :: older' <:+ c.shared.2 → order (v :: older) = some n →
      order (v' :: older') = some n → Answers K v w → Answers K v' w' →
      w :: v :: older = w' :: v' :: older' := by
  refine ⟨?_, fun v older hv hset => order_of_run hrv hrun hv hset, ?_⟩
  · intro w v older hw
    have hstep := replaces_of_run hrv hrun hw
    refine ⟨hstep.removed hset, ?_, hstep.publishing⟩
    intro hsteady hother hbefore hafter
    rcases hstep.removed hset hbefore hafter with ⟨_, hstarts⟩ | hphase | hphase
    · exact hother hstarts
    · rw [hsteady] at hphase
      cases hphase
    · rw [hsteady] at hphase
      cases hphase
  · intro w v older w' v' older' n hw hw' horder horder' hans hans'
    have hordered : Ordered c.shared.2 :=
      (run_keeps (fun _ _ _ _ _ _ _ hs hact => Dated.act hact hs) (dated_start hrv)
        (meets_true _ ls) hrun).ordered
    exact answers_once hordered hw hw' horder horder'
      ((replaces_of_run hrv hrun hw).answered hans) ((replaces_of_run hrv hrun hw').answered hans')

end Orders

/-- An order, and two replicas that poll after it. -/
def orderAndPolls : Fin 3 → Request Nat Nat
  | 0 => .edit ordered
  | 1 => .poll (replica defaults noon)
  | 2 => .poll (replica defaults noon)

/-- The CA Secret before the order. -/
def unordered : Secret Bytes := { ordered with annotations := ∅ }

/-- Both replicas read the order before one of them writes. -/
def racingPolls : List (Fin 3 × RotEnv) := after 0 (numbered [0, 1, 2, 1, 2, 1, 2, 1, 2])

/-- One of the two polls takes the order and starts the rotation, and the other one fails. -/
theorem one_poll_answers_the_order :
    ∃ c w v u, run (rotMachine smallKit) (system smallKit noon unordered orderAndPolls)
        racingPolls = some c ∧ c.shared.2 = [w, v, u] ∧ rotateNow u = none ∧
      order [v, u] = some 2 ∧ Starts smallKit v w ∧
      ∀ w' v' older', w' :: v' :: older' <:+ c.shared.2 → order (v' :: older') = some 2 →
        Answers smallKit v' w' → [w, v, u] = w' :: v' :: older' := by
  have hlaw := fun c hrun => (rotate_now_is_honoured_once smallKit noon unordered (by decide)
    orderAndPolls (by
      intro i new hcall
      match i with
      | 0 =>
        cases hcall
        decide
      | 1 => cases hcall
      | 2 => cases hcall) racingPolls c hrun)
  refine ⟨_, _, _, _, rfl, rfl, by decide, by decide, ?_, ?_⟩
  · rcases ((hlaw _ rfl).1 _ _ _ (suffix_refl _)).1 (by decide) (by decide) with h | h | h
    · exact h
    · exact absurd h (by decide)
    · exact absurd h (by decide)
  · intro w' v' older' hs horder hans
    exact (hlaw _ rfl).2.2 _ _ _ _ _ _ 2 (suffix_refl _) hs (by decide) horder
      (.inl (by decide)) hans

end prom_fleet.rotation
