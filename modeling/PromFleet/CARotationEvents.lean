-- The operations of one poll of the rotation: what it has read, what it has asked, and
-- the plan that it has made of the answers when the whole poll takes place at one instant.
import PromFleet.CARotation
import PromFleet.History

namespace prom_fleet.rotation

open interleave gotime List Prog kube

variable {Cert Key ι : Type} {K : Toolkit Cert Key} {i : ι}

abbrev RotEvent (Cert : Type) := Event (@RotAns Cert) RotEnv (Int × Server)

/-! ## What an operation does to the server -/

variable {e : RotEnv} {o : RotOp Cert} {a : RotAns o} {s t : Int × Server}

/-- An operation leaves the versions as they are, or it stores one that was made from
the newest version, with the date of the clock. -/
theorem act_cases (h : (rotMachine K).act i o e s = some (a, t)) : s.1 ≤ t.1 ∧ t.1 = e.now ∧
      (t.2 = s.2 ∨ ∃ cur new writer, current s.2 = some cur ∧
        new.resourceVersion = cur.resourceVersion ∧
        (o = .updateSecret new writer ∨ ∃ sec, o = .edit sec) ∧
        t.2 = ⟨{ new with resourceVersion := cur.resourceVersion + e.gap + 1 },
          ⟨writer, e.now⟩⟩ :: s.2) := by
  obtain ⟨hle, hnow, hact⟩ := clocked_act h
  refine ⟨hle, hnow, ?_⟩
  cases o with
  | getSecret => exact .inl (congrArg Prod.snd (Option.some.inj hact)).symm
  | clock | holdoutsOn | newRootPEM => exact .inl (congrArg Prod.snd (Option.some.inj hact)).symm
  | updateSecret new writer =>
    rcases hupd : kube.updateSecret e.gap ⟨writer, e.now⟩ new s.2 with ⟨x, s'⟩
    have ht : t.2 = s.2 ∨ t.2 = s' :=
      kube.deliver_keeps (P := fun u => u = s.2 ∨ u = s') (.inl rfl) (.inr (by rw [hupd]))
        (Option.some.inj hact)
    rcases ht with ht | ht
    · exact .inl ht
    rcases updateSecret_cases hupd with ⟨hs, _⟩ | ⟨cur, stored, hcur, hrv, hst, _, hs⟩
    · exact .inl (ht.trans hs)
    · subst hst
      exact .inr ⟨cur, new, writer, hcur, hrv, .inl rfl, ht.trans hs⟩
  | edit sec =>
    simp only [rotAct] at hact
    split at hact
    · cases hact
    obtain ⟨new, _, hpair⟩ := Option.map_eq_some_iff.mp hact
    have ht := (congrArg Prod.snd hpair).symm
    rcases updateSecret_cases rfl with ⟨hs, _⟩ | ⟨cur, stored, hcur, hrv, hstored, _, hs⟩
    · exact .inl (ht.trans hs)
    · subst hstored
      exact .inr ⟨cur, new, .other, hcur, hrv, .inr ⟨sec, rfl⟩, ht.trans hs⟩

variable {sec : Secret Bytes}

theorem current_of_read (h : (rotMachine K).act i (.getSecret : RotOp Cert) e s = some (.ok sec, t))
    : current s.2 = some sec := by
  have hans : (kube.deliver e.fault s.2 (kube.getSecret s.2, s.2)).1 = .ok sec :=
    congrArg Prod.fst (Option.some.inj (clocked_act h).2.2)
  rcases kube.deliver_cases (Prod.ext hans rfl : kube.deliver e.fault s.2
    (kube.getSecret s.2, s.2) = (.ok sec, Prod.snd _)) with hget | ⟨herr, _⟩
  · exact kube.getSecret_ok (congrArg Prod.fst hget).symm
  · cases herr

/-- The versions come in the order of their dates, and the clock has passed them all. -/
structure Dated (s : Int × Server) : Prop where
  ordered : Ordered s.2
  pairwise : s.2.Pairwise fun w v => v.note.committed ≤ w.note.committed
  committed : ∀ v ∈ s.2, v.note.committed ≤ s.1

variable {j : ι}

theorem Dated.act (h : (rotMachine K).act j o e s = some (a, t)) (hs : Dated s) : Dated t := by
  obtain ⟨hle, hnow, hsame | ⟨cur, new, writer, hcur, _, _, ht⟩⟩ := act_cases h
  · refine ⟨hsame ▸ hs.ordered, hsame ▸ hs.pairwise, fun v hv => ?_⟩
    rw [hsame] at hv
    exact le_trans (hs.committed v hv) hle
  · have hpast : ∀ v ∈ s.2, v.note.committed ≤ e.now := fun v hv =>
      le_trans (hs.committed v hv) (hnow ▸ hle)
    refine ⟨?_, ?_, fun v hv => ?_⟩
    · rw [ht]
      refine hs.ordered.push (by simp only; omega) fun c hc => ?_
      rw [hcur] at hc
      cases hc
      simp only
      omega
    · rw [ht]
      exact pairwise_cons.mpr ⟨hpast, hs.pairwise⟩
    · rw [ht] at hv
      rw [hnow]
      rcases mem_cons.mp hv with rfl | hv
      · exact le_refl _
      · exact hpast v hv

theorem dated_start {t : Int} (h : 0 < sec.resourceVersion) : Dated (t, [⟨sec, ⟨.other, t⟩⟩]) := by
  refine ⟨ordered_nil.push h fun cur hcur => ?_, pairwise_singleton _ _, ?_⟩
  · cases hcur
  · intro v hv
    rw [mem_singleton.mp hv]

/-- The versions of `s` are there in `t`, below those that were stored since. -/
def Since (s t : Int × Server) : Prop :=
  s.1 ≤ t.1 ∧ ∃ new, t.2 = new ++ s.2 ∧ ∀ v ∈ new, s.1 ≤ v.note.committed

theorem Since.refl (s : Int × Server) : Since s s := by
  refine ⟨le_refl _, [], rfl, fun v hv => ?_⟩
  cases hv

theorem Since.act {r : Int × Server} (h : (rotMachine K).act j o e s = some (a, t))
    (hs : Since r s) : Since r t := by
  obtain ⟨hrs, new, hnew, hdates⟩ := hs
  obtain ⟨hle, hnow, hsame | ⟨cur, sec, writer, _, _, _, ht⟩⟩ := act_cases h
  · exact ⟨le_trans hrs hle, new, hsame.trans hnew, hdates⟩
  rw [hnew, ← cons_append] at ht
  refine ⟨le_trans hrs hle, _, ht, fun v hv => ?_⟩
  rcases mem_cons.mp hv with rfl | hv
  · exact hnow ▸ le_trans hrs hle
  · exact hdates v hv

/-- Each version that a run has stored is the work of one event. -/
theorem written_of_run [DecidableEq ι] {c c' : Conf (@RotAns Cert) ι (Int × Server) Unit}
    {ls : List (ι × RotEnv)} (h : run (rotMachine K) c ls = some c') {w : Version Bytes Note}
    {older : Server} (hw : w :: older <:+ c'.shared.2) :
    w :: older <:+ c.shared.2 ∨ ∃ i, ∃ ev ∈ history (rotMachine K) i c ls,
      ev.before.2 = older ∧ ev.after.2 = w :: older := by
  refine pushed_of_run ?_ h hw
  intro i o e s a t hact
  obtain ⟨_, _, hsame | ⟨_, _, _, _, _, _, hpush⟩⟩ := act_cases hact
  · exact .inl hsame
  · exact .inr ⟨_, hpush⟩

/-! ## The events of a poll -/

/-- The operation belongs to the making of a plan. -/
def RotOp.asks : RotOp Cert → Bool
  | .clock | .newRootPEM | .holdoutsOn _ => true
  | .getSecret | .updateSecret _ _ | .edit _ => false

/-- The tracker of the replica has reported a session on the outgoing root. -/
def told (ev : RotEvent Cert) : Bool :=
  match ev with
  | ⟨.holdoutsOn _, _, n, _, _⟩ => decide (0 < n)
  | _ => false

/-- The plan that records a sighting at `n`. -/
def sighting (K : Toolkit Cert Key) (n : Int) : CaRotationPlan :=
  { target := .signing, keepSince := true, set := [(secretKeyRotationHoldout, K.formatTime n)] }

/-- A plan for the state `st` of the signing phase, made at `n`, with what it took to
make it. -/
inductive Vetted (K : Toolkit Cert Key) (cfg : Config) (st : CaRotationState) (n : Int) :
    CaRotationPlan → Prop
  | consume (h : st.force ≠ "") :
    Vetted K cfg st n { target := st.phase, keepSince := true, consumeForce := true }
  | finish (h : st.prevCertPEM = []) :
    Vetted K cfg st n { target := .steady, del := rotationScratchKeys }
  | repair (h : st.sinceOK = false) : Vetted K cfg st n { target := st.phase }
  | sight : Vetted K cfg st n (sighting K n)
  | retire (h : st.lastHoldout = 0 ∨ cfg.holdoutQuiet ≤ timeSub n st.lastHoldout) :
    Vetted K cfg st n
      { target := .steady
        del := [secretKeyCAPrevCert, secretKeyRotationHoldout, secretKeyRotationRetireAfter] }

/-- Nothing but the sessions keeps the outgoing root. -/
structure Awaits (st : CaRotationState) : Prop where
  signing : st.phase = .signing
  unforced : st.force = ""
  stored : st.prevCertPEM ≠ []
  timed : st.sinceOK = true

section Events

variable {s t : Int × Server} {evs : List (RotEvent Cert)} {r : CaRotator Cert Key}
  {st : CaRotationState} {n : Int}

/-- What `planSigning` has asked at `n`, and what it has made of the answers. -/
structure SigningStory (K : Toolkit Cert Key) (cfg : Config) (st : CaRotationState) (n : Int)
    (evs : List (RotEvent Cert)) (x : Option CaRotationPlan) : Prop where
  vetted : ∀ p, x = some p → Vetted K cfg st n p
  told : (∃ ev ∈ evs, told ev = true) → st.prevCertPEM ≠ [] ∧ st.sinceOK = true ∧
    (x = none → timeSub n st.lastHoldout < cfg.pollInterval)

variable {cfg : Config} {x : Option CaRotationPlan}

/-- A plan that is made without asking the tracker. -/
theorem SigningStory.untold (hevs : ∀ ev ∈ evs, ev.op = .clock)
    (hx : ∀ p, x = some p → Vetted K cfg st n p) : SigningStory K cfg st n evs x := by
  refine ⟨hx, ?_⟩
  rintro ⟨⟨o, e, a, s, t⟩, hev, htold⟩
  obtain rfl : o = .clock := hevs _ hev
  cases htold

theorem planSigning_path (h : Path (rotMachine K) i (planSigning K r st) s evs (.done x) t)
    (hnow : ∀ ev ∈ evs, ev.env.now = n) : SigningStory K r.cfg st n evs x := by
  unfold planSigning at h
  split at h
  · rename_i hmissing
    obtain ⟨rfl, hx, _⟩ := Path.of_done h
    cases hx
    refine .untold (fun _ hev => by cases hev) fun p hp => ?_
    cases hp
    exact .finish (by simpa using hmissing)
  · rename_i hstored
    split at h
    · rename_i plan hrepair
      obtain ⟨rfl, hx, _⟩ := Path.of_done h
      cases hx
      refine .untold (fun _ hev => by cases hev) fun p hp => ?_
      cases hp
      unfold repairSince at hrepair
      split at hrepair
      · cases hrepair
      rename_i hsince
      cases hrepair
      exact .repair (by simpa using hsince)
    · rename_i hrepair
      rw [call_bind] at h
      obtain ⟨e, now, s₁, t₁, evs₁, _, hact, rfl, hrest⟩ := Path.of_op h
      obtain rfl : now = n := by
        have hread := (clocked_act hact).2.2
        have hans := congrArg Prod.fst (Option.some.inj hread)
        exact hans.symm.trans (hnow _ mem_cons_self)
      -- before the gate and in the startup window nothing is asked
      have hidle : ∀ {evs₁ : List (RotEvent Cert)}, evs₁ = [] →
          SigningStory K r.cfg st now (⟨.clock, e, now, s₁, t₁⟩ :: evs₁) none := by
        rintro _ rfl
        refine .untold (fun ev hev => ?_) fun p hp => by cases hp
        rw [mem_singleton.mp hev]
      split at hrest
      · obtain ⟨hevs, hx, _⟩ := Path.of_done hrest
        cases hx
        exact hidle hevs
      · split at hrest
        · obtain ⟨hevs, hx, _⟩ := Path.of_done hrest
          cases hx
          exact hidle hevs
        · rw [call_bind] at hrest
          obtain ⟨e', k, s₂, t₂, evs₂, _, _, rfl, hlast⟩ := Path.of_op hrest
          have hsince : st.sinceOK = true := by
            by_contra hbad
            exact hrepair _ (if_neg hbad)
          split at hlast
          · rename_i hsome
            split at hlast
            · rename_i hrecent
              obtain ⟨rfl, hx, _⟩ := Path.of_done hlast
              cases hx
              exact ⟨(fun p hp => by cases hp),
                fun _ => ⟨by simpa using hstored, hsince, fun _ => hrecent⟩⟩
            · obtain ⟨rfl, hx, _⟩ := Path.of_done hlast
              cases hx
              refine ⟨fun p hp => ?_,
                fun _ => ⟨by simpa using hstored, hsince, fun hp => by cases hp⟩⟩
              cases hp
              exact .sight
          · rename_i hnone
            have huntold : ¬ ∃ ev ∈ [(⟨.clock, e, now, s₁, t₁⟩ : RotEvent Cert),
                ⟨.holdoutsOn (outgoingRoot K st), e', k, s₂, t₂⟩], told ev = true := by
              simp [told, hnone]
            split at hlast
            · obtain ⟨rfl, hx, _⟩ := Path.of_done hlast
              cases hx
              exact ⟨(fun p hp => by cases hp), fun htold => absurd htold huntold⟩
            · rename_i hveto
              obtain ⟨rfl, hx, _⟩ := Path.of_done hlast
              cases hx
              refine ⟨fun p hp => ?_, fun htold => absurd htold huntold⟩
              cases hp
              refine .retire ?_
              by_cases hzero : st.lastHoldout = 0
              · exact .inl hzero
              · exact .inr (by simpa [isZero, hzero] using hveto)

theorem rotationDue_only : (rotationDue K r st).Only fun o => o = .clock ∨ o = .newRootPEM := by
  unfold rotationDue
  split
  · trivial
  · exact ⟨.inl rfl, fun _ => trivial⟩

theorem planSteady_only : (planSteady K r st).Only fun o => o = .clock ∨ o = .newRootPEM := by
  unfold planSteady
  split
  · trivial
  refine .bind rotationDue_only fun due => ?_
  split
  · trivial
  · refine ⟨.inr rfl, fun root => ?_⟩
    cases root <;> trivial

theorem planPublishing_only :
    (planPublishing K r st).Only fun o => o = .clock ∨ o = .newRootPEM := by
  unfold planPublishing
  split
  · trivial
  split
  · trivial
  rw [call_bind]
  refine ⟨.inl rfl, fun now => ?_⟩
  dsimp only
  split <;> trivial

theorem planSigning_only : (planSigning K r st).Only fun o => o.asks = true := by
  unfold planSigning
  split
  · trivial
  split
  · trivial
  rw [call_bind]
  refine ⟨rfl, fun now => ?_⟩
  dsimp only
  split
  · trivial
  split
  · trivial
  rw [call_bind]
  refine ⟨rfl, fun n => ?_⟩
  dsimp only
  split <;> split <;> trivial

theorem plan_only : (plan K r st).Only fun o => o.asks = true := by
  have hplain : ∀ o : RotOp Cert, o = .clock ∨ o = .newRootPEM → o.asks = true := by
    rintro o (rfl | rfl) <;> rfl
  unfold plan
  split
  · trivial
  split
  · trivial
  split
  · exact planSteady_only.mono hplain
  · exact (planPublishing_only.mono hplain).bind fun _ => trivial
  · exact planSigning_only.bind fun _ => trivial

/-- What `plan` has asked at `n`, and what it has made of the answers. -/
structure PlanStory (K : Toolkit Cert Key) (cfg : Config) (st : CaRotationState) (n : Int)
    (evs : List (RotEvent Cert)) (x : Except StepErr (Option CaRotationPlan)) : Prop where
  vetted : ∀ p, x = .ok (some p) → st.phase = .signing → Vetted K cfg st n p
  told : (∃ ev ∈ evs, told ev = true) → Awaits st ∧
    ((∃ p, x = .ok (some p)) ∨ timeSub n st.lastHoldout < cfg.pollInterval)

variable {x : Except StepErr (Option CaRotationPlan)}

theorem PlanStory.untold (hevs : ∀ ev ∈ evs, ev.op = .clock ∨ ev.op = .newRootPEM)
    (hx : ∀ p, x = .ok (some p) → st.phase = .signing → Vetted K cfg st n p) :
    PlanStory K cfg st n evs x := by
  refine ⟨hx, ?_⟩
  rintro ⟨⟨o, e, a, s, t⟩, hev, htold⟩
  rcases (hevs _ hev : o = .clock ∨ o = .newRootPEM) with rfl | rfl <;> cases htold

theorem plan_path (h : Path (rotMachine K) i (plan K r st) s evs (.done x) t)
    (hnow : ∀ ev ∈ evs, ev.env.now = n) : PlanStory K r.cfg st n evs x := by
  unfold plan at h
  split at h
  · obtain ⟨rfl, hx, _⟩ := Path.of_done h
    cases hx
    exact .untold (fun _ hev => by cases hev) fun p hp => by cases hp
  · split at h
    · rename_i hforce
      obtain ⟨rfl, hx, _⟩ := Path.of_done h
      cases hx
      refine .untold (fun _ hev => by cases hev) fun p hp _ => ?_
      cases hp
      exact .consume hforce.1
    · rename_i hforce
      split at h
      · rename_i hphase
        refine .untold (h.only planSteady_only) fun p _ hsigning => ?_
        rw [hphase] at hsigning
        cases hsigning
      · rename_i hphase
        obtain ⟨y, u, rfl, hpath, _⟩ := Path.of_map h
        refine .untold (hpath.only planPublishing_only) fun p _ hsigning => ?_
        rw [hphase] at hsigning
        cases hsigning
      · rename_i hphase
        obtain ⟨y, u, rfl, hpath, _⟩ := Path.of_map h
        have hstory := planSigning_path hpath hnow
        refine ⟨fun p hp _ => hstory.vetted p (Except.ok.inj hp), fun htold => ?_⟩
        obtain ⟨hstored, hsince, hrecent⟩ := hstory.told htold
        have hunforced : st.force = "" := by
          by_contra hset
          exact hforce ⟨hset, by rw [hphase]; decide⟩
        refine ⟨⟨hphase, hunforced, hstored, hsince⟩, ?_⟩
        cases y with
        | none => exact .inr (hrecent rfl)
        | some p => exact .inl ⟨p, rfl⟩

/-- A poll that has ended: it has read the Secret, planned at `n`, and has written if its
plan said so. -/
inductive PollStory (K : Toolkit Cert Key) (cfg : Config) (n : Int) :
    List (RotEvent Cert) → Prop
  | idle {read : RotEvent Cert} {asked : List (RotEvent Cert)} (hread : read.op = .getSecret)
    (hasks : ∀ ev ∈ asked, ev.op.asks = true)
    (htold : (∃ ev ∈ asked, told ev = true) → ∃ sec, current read.before.2 = some sec ∧
      Awaits (readCARotation K sec) ∧
      timeSub n (readCARotation K sec).lastHoldout < cfg.pollInterval) :
    PollStory K cfg n (read :: asked)
  | wrote {read write : RotEvent Cert} {asked : List (RotEvent Cert)} {sec : Secret Bytes}
    {p : CaRotationPlan} (hread : read.op = .getSecret)
    (hsec : current read.before.2 = some sec) (hasks : ∀ ev ∈ asked, ev.op.asks = true)
    (htold : (∃ ev ∈ asked, told ev = true) → Awaits (readCARotation K sec))
    (hplan : (readCARotation K sec).phase = .signing →
      Vetted K cfg (readCARotation K sec) n p)
    (hwrite : write.op = .updateSecret (p.write K n sec) (.rotator cfg p.promotedAt)) :
    PollStory K cfg n (read :: asked ++ [write])

theorem sync_cfg {r' : CaRotator Cert Key} (h : sync K r st = some r') : r'.cfg = r.cfg := by
  unfold sync at h
  simp only at h
  split at h
  · cases h
    rfl
  · obtain ⟨m, _, rfl⟩ := Option.map_eq_some_iff.mp h
    rfl

variable {sec : Secret Bytes}

theorem advance_path {x : Except StepErr (Option CaRotationState)}
    (h : Path (rotMachine K) i (advance K r sec st) s evs (.done x) t)
    (hnow : ∀ ev ∈ evs, ev.env.now = n) : ((∀ ev ∈ evs, ev.op.asks = true) ∧
        ∃ y, (∀ p, y ≠ .ok (some p)) ∧ PlanStory K r.cfg st n evs y) ∨
      ∃ p asked write, evs = asked ++ [write] ∧ (∀ ev ∈ asked, ev.op.asks = true) ∧
        PlanStory K r.cfg st n asked (.ok (some p)) ∧
        write.op = .updateSecret (p.write K n sec) (.rotator r.cfg p.promotedAt) := by
  obtain ⟨y, u, asked, rest, rfl, hplan, hrest⟩ := Path.of_bind h
  have hstory := plan_path hplan fun ev hev => hnow ev (mem_append_left _ hev)
  have hasks := hplan.only plan_only
  cases y with
  | error e =>
    obtain ⟨rfl, _, _⟩ := Path.of_done hrest
    rw [append_nil]
    exact .inl ⟨hasks, _, (fun p hp => by cases hp), hstory⟩
  | ok y =>
    cases y with
    | none =>
      obtain ⟨rfl, _, _⟩ := Path.of_done hrest
      rw [append_nil]
      exact .inl ⟨hasks, _, (fun p hp => by cases hp), hstory⟩
    | some p =>
      simp only [call_bind] at hrest
      obtain ⟨e, now, s₁, t₁, evs₁, _, hact, rfl, hwrite⟩ := Path.of_op hrest
      obtain ⟨e', y, s₂, t₂, evs₂, _, _, rfl, hlast⟩ := Path.of_op hwrite
      have hend : evs₂ = [] := by
        split at hlast <;> exact (Path.of_done hlast).1
      subst hend
      obtain rfl : now = n := by
        have hans := congrArg Prod.fst (Option.some.inj (clocked_act hact).2.2)
        refine hans.symm.trans (hnow ⟨.clock, e, now, s₁, t₁⟩ ?_)
        exact mem_append_right _ mem_cons_self
      refine .inr ⟨p, asked ++ [⟨.clock, e, now, s₁, t₁⟩], ⟨_, e', y, s₂, t₂⟩, ?_, ?_, ?_, rfl⟩
      · rw [append_assoc]
        rfl
      · intro ev hev
        rcases mem_append.mp hev with hev | hev
        · exact hasks ev hev
        · rw [mem_singleton.mp hev]
          rfl
      · refine ⟨hstory.vetted, ?_⟩
        rintro ⟨ev, hev, htold⟩
        rcases mem_append.mp hev with hev | hev
        · exact hstory.told ⟨ev, hev, htold⟩
        · rw [mem_singleton.mp hev] at htold
          cases htold

theorem poll_path {x : CaRotator Cert Key × Option StepErr}
    (h : Path (rotMachine K) i (poll K r) s evs (.done x) t)
    (hnow : ∀ ev ∈ evs, ev.env.now = n) : PollStory K r.cfg n evs := by
  unfold poll at h
  rw [call_bind] at h
  obtain ⟨e, y, s₁, t₁, rest, _, hact, rfl, hrest⟩ := Path.of_op h
  have hquiet : ∀ {rest : List (RotEvent Cert)}, rest = [] →
      PollStory K r.cfg n (⟨.getSecret, e, y, s₁, t₁⟩ :: rest) := by
    rintro _ rfl
    refine .idle rfl (fun _ hev => by cases hev) ?_
    rintro ⟨_, hev, _⟩
    cases hev
  cases y with
  | error err => exact hquiet (Path.of_done hrest).1
  | ok sec =>
    simp only at hrest
    split at hrest
    · exact hquiet (Path.of_done hrest).1
    rename_i r' hsync
    have hcur : current s₁.2 = some sec := current_of_read hact
    obtain ⟨z, u, asked, last, rfl, hadvance, hlast⟩ := Path.of_bind hrest
    have hend : last = [] := by
      split at hlast
      · exact (Path.of_done hlast).1
      · exact (Path.of_done hlast).1
      · split at hlast <;> exact (Path.of_done hlast).1
    subst hend
    rw [append_nil] at hnow ⊢
    have hstory := advance_path hadvance fun ev hev => hnow ev (mem_cons_of_mem _ hev)
    rw [sync_cfg hsync] at hstory
    rcases hstory with ⟨hasks, y, hnone, hstory⟩ | ⟨p, asks, write, rfl, hasks, hstory, hwrite⟩
    · refine .idle rfl hasks fun htold => ⟨sec, hcur, ?_⟩
      obtain ⟨hawaits, ⟨p, hp⟩ | hrecent⟩ := hstory.told htold
      · exact absurd hp (hnone p)
      · exact ⟨hawaits, hrecent⟩
    · exact .wrote rfl hcur hasks (fun htold => (hstory.told htold).1) (hstory.vetted p rfl) hwrite

theorem poll_endsWith :
    (Request.program K (.poll r)).EndsWith fun o => o.asks = false ∧ o ≠ .getSecret := by
  refine .map ?_ fun _ => ⟨(), rfl⟩
  unfold poll
  rw [call_bind]
  intro y
  refine ⟨fun hget => absurd rfl hget.2, ?_⟩
  cases y with
  | error e => trivial
  | ok sec =>
    simp only
    split
    · trivial
    refine .map ?_ fun x => ?_
    · unfold advance
      refine .bind (plan_only.mono fun o ho h => ?_) fun x => ?_
      · rw [ho] at h
        cases h.1
      cases x with
      | error e => trivial
      | ok x =>
        cases x with
        | none => trivial
        | some p =>
          simp only [call_bind]
          refine fun now => ⟨(fun h => by cases h.1), fun y => ?_⟩
          cases y with
          | ok updated => exact ⟨fun _ => ⟨_, rfl⟩, trivial⟩
          | error e => cases e <;> exact ⟨fun _ => ⟨_, rfl⟩, trivial⟩
    · split
      · exact ⟨_, rfl⟩
      · exact ⟨_, rfl⟩
      · split <;> exact ⟨_, rfl⟩

variable {read : RotEvent Cert} {α : Type} {p q : Rot Cert α}

/-- What a poll has read stays below all that is stored after it. -/
theorem since_read (h : Path (rotMachine K) i p s (read :: evs) q t) (hread : read.op = .getSecret)
    : read.after = (read.env.now, read.before.2) ∧ Since read.after t ∧
      ∀ ev ∈ evs, Since read.after ev.before ∧ Since read.after ev.after := by
  obtain ⟨_, hnow, hsame | ⟨_, _, _, _, _, hop, _⟩⟩ := act_cases (h.acts _ mem_cons_self)
  · refine ⟨Prod.ext hnow hsame, ?_⟩
    exact h.keeps_after (fun _ _ _ _ _ _ hact => Since.act hact) [] (Since.refl _)
  · rw [hread] at hop
    rcases hop with hop | ⟨_, hop⟩ <;> cases hop

/-- The versions around the one that a poll has read at `n`. -/
theorem read_leaves (h : Path (rotMachine K) i p s (read :: evs) q t) (hread : read.op = .getSecret)
    (hnow : read.env.now = n) (hdated : Dated read.before) (hsec : current read.before.2 = some sec)
    : ∃ v older new, v.secret = sec ∧ read.before.2 = v :: older ∧ t.2 = new ++ v :: older ∧
      (∀ w ∈ new, n ≤ w.note.committed) ∧ ∀ w ∈ v :: older, w.note.committed ≤ n := by
  obtain ⟨v, older, hbefore, hv⟩ := current_eq_some hsec
  obtain ⟨hafter, ⟨_, new, hnew, hdates⟩, _⟩ := since_read h hread
  obtain ⟨hle, htime, _⟩ := act_cases (h.acts _ mem_cons_self)
  rw [hafter, hnow] at hdates
  rw [hafter, hbefore] at hnew
  refine ⟨v, older, new, hv, hbefore, hnew, hdates, fun w hw => ?_⟩
  rw [← hbefore] at hw
  have := hdated.committed w hw
  omega

theorem asks_of_told {ev : RotEvent Cert} (h : told ev = true) : ev.op.asks = true := by
  obtain ⟨o, e, a, s, t⟩ := ev
  cases o <;> first | rfl | cases h

variable {writer : Writer}

theorem update_lands {new cur : Secret Bytes}
    (h : (rotMachine K).act i o e s = some (a, t)) (ho : o = .updateSecret new writer)
    (hfault : e.fault = .delivered) (hcur : current s.2 = some cur)
    (hrv : new.resourceVersion = cur.resourceVersion) (hpos : 0 < cur.resourceVersion) :
    t.2 ≠ s.2 := by
  subst ho
  have hact : kube.deliver e.fault s.2 (kube.updateSecret e.gap ⟨writer, e.now⟩ new s.2) =
      (a, t.2) := Option.some.inj (clocked_act h).2.2
  rw [hfault] at hact
  unfold kube.deliver kube.updateSecret at hact
  simp only [hcur, hrv, if_true] at hact
  rw [if_neg (by omega)] at hact
  rw [← congrArg Prod.snd hact]
  exact cons_ne_self _ _

/-- A poll that has read `v` and written on it at `n` leaves a version of that date on top of
`v`: its own, or the one that was there before it. -/
theorem written_after {write : RotEvent Cert} {asked : List (RotEvent Cert)}
    {v : Version Bytes Note} {older new : Server}
    (h : Path (rotMachine K) i p s (read :: asked ++ [write]) q t) (hread : read.op = .getSecret)
    (hwrite : write.op = .updateSecret sec writer)
    (hrv : sec.resourceVersion = v.secret.resourceVersion)
    (henv : ∀ ev ∈ read :: asked ++ [write], ev.env.now = n ∧ ev.env.fault = .delivered)
    (hdated : ∀ ev ∈ read :: asked ++ [write], Dated ev.before ∧ Dated ev.after)
    (hbefore : read.before.2 = v :: older) (hnew : t.2 = new ++ v :: older) :
    ∃ newer u, new = newer ++ [u] ∧ u.note.committed = n := by
  have hlast : write ∈ read :: asked ++ [write] := mem_append_right _ mem_cons_self
  obtain ⟨hcopy, _, hsince⟩ := since_read h hread
  obtain ⟨⟨_, earlier, hearlier, _⟩, _, later, hlater, hdates⟩ :=
    hsince write (mem_append_right _ mem_cons_self)
  rw [hcopy, hbefore] at hearlier hlater
  have hact := h.acts write hlast
  obtain ⟨_, hclock, hgrown⟩ := act_cases hact
  rcases eq_nil_or_concat later with rfl | ⟨mid, u, rfl⟩
  · -- nothing has come on top of `v`, so the write has found it and has landed
    exfalso
    rw [nil_append] at hlater
    have hle : write.before.2.length ≤ write.after.2.length := by
      rcases hgrown with hsame | ⟨_, _, _, _, _, _, hpush⟩
      · rw [hsame]
      · rw [hpush]
        exact Nat.le_succ _
    obtain rfl : earlier = [] := by
      rw [hearlier, hlater, length_append] at hle
      exact length_eq_zero_iff.mp (by omega)
    rw [nil_append] at hearlier
    have hcur : current write.before.2 = some v.secret := by
      rw [hearlier]
      rfl
    have hpos := (hdated write hlast).1.ordered.pos v (by rw [hearlier]; exact mem_cons_self)
    refine update_lands hact hwrite (henv write hlast).2 hcur hrv hpos ?_
    rw [hearlier, hlater]
  · obtain ⟨⟨_, extra, hextra, _⟩, _⟩ := h.keeps_after
      (fun _ _ _ _ _ _ hact => Since.act hact) (read :: asked) (Since.refl _)
    refine ⟨extra ++ mid, u, ?_, ?_⟩
    · rw [hextra, hlater, ← append_assoc] at hnew
      have := append_cancel_right hnew
      simpa using this.symm
    · have hu : u ∈ mid.concat u := by simp
      have hlow := hdates u hu
      have hhigh := (hdated write hlast).2.committed u (by rw [hlater]; simp)
      rw [hcopy, (henv _ mem_cons_self).1] at hlow
      rw [hclock, (henv _ hlast).1] at hhigh
      exact le_antisymm hhigh hlow

end Events

end prom_fleet.rotation
