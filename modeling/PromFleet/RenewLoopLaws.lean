-- What a save of a pod replaces. The update of a save is conditional on the version that the
-- save itself has just read, not on the one that the pod has looked at: the two are the same
-- if nobody writes in between, and then one of several renewing pods wins and the others know.
import PromFleet.RenewLoop

namespace prom_fleet.renewal

open interleave gotime Prog kube

variable {ι : Type}

abbrev PodEvent (ι : Type) := Event Ans Env (Server ι)

/-! ## Requests -/

section Act

variable {i : ι} {o : Op} {e : Env} {a : Ans o} {v v' : Server ι}
  (h : podMachine.act i o e v = some (a, v'))

include h

/-- An operation leaves the versions as they are, or it stores the next one. -/
theorem act_cases : v' = v ∨
      (∃ sec cur, o = .updateSecret sec ∧ current v = some cur ∧
        sec.resourceVersion = cur.resourceVersion ∧
        v' = ⟨{ sec with resourceVersion := cur.resourceVersion + e.gap + 1 }, i⟩ :: v) ∨
      ∃ sec, o = .createSecret sec ∧ v = [] ∧
        v' = ⟨{ sec with resourceVersion := e.gap + 1 }, i⟩ :: v := by
  cases o with
  | createSecret sec =>
    rcases hcreate : kube.createSecret e.gap i sec v with ⟨x, u⟩
    have hv : v' = v ∨ v' = u :=
      kube.deliver_keeps (P := fun w => w = v ∨ w = u) (.inl rfl) (.inr (by rw [hcreate]))
        (Option.some.inj h)
    rcases hv with hv | hv
    · exact .inl hv
    rcases createSecret_cases hcreate with ⟨hsame, _⟩ | ⟨hnone, stored, hst, _, hpush⟩
    · exact .inl (hv.trans hsame)
    · subst hst
      exact .inr (.inr ⟨sec, rfl, current_eq_none hnone, hv.trans hpush⟩)
  | updateSecret sec =>
    rcases hupdate : kube.updateSecret e.gap i sec v with ⟨x, u⟩
    have hv : v' = v ∨ v' = u :=
      kube.deliver_keeps (P := fun w => w = v ∨ w = u) (.inl rfl) (.inr (by rw [hupdate]))
        (Option.some.inj h)
    rcases hv with hv | hv
    · exact .inl hv
    rcases updateSecret_cases hupdate with ⟨hsame, _⟩ | ⟨cur, st, hcur, hrv, hst, _, hpush⟩
    · exact .inl (hv.trans hsame)
    · subst hst
      exact .inr (.inl ⟨sec, cur, rfl, hcur, hrv, hv.trans hpush⟩)
  | _ => exact .inl (congrArg Prod.snd (Option.some.inj h)).symm

theorem act_pushes : v' = v ∨ ∃ w, v' = w :: v := by
  rcases act_cases h with hsame | ⟨_, _, _, _, _, hpush⟩ | ⟨_, _, _, hpush⟩
  · exact .inl hsame
  · exact .inr ⟨_, hpush⟩
  · exact .inr ⟨_, hpush⟩

theorem act_suffix : v <:+ v' := by
  rcases act_pushes h with hsame | ⟨w, hpush⟩
  · rw [hsame]
  · rw [hpush]
    exact List.suffix_cons _ _

theorem act_ordered (hv : Ordered v) : Ordered v' := by
  rcases act_cases h with hsame | ⟨sec, cur, _, hcur, _, hpush⟩ | ⟨sec, _, hnone, hpush⟩
  · rw [hsame]
    exact hv
  · rw [hpush]
    refine hv.push (by simp only; omega) ?_
    intro x hx
    rw [hcur] at hx
    cases hx
    simp only
    omega
  · rw [hpush]
    refine hv.push (by simp only; omega) ?_
    intro x hx
    rw [hnone] at hx
    cases hx

end Act

theorem getSecret_answer {f : Fault} {v : Server ι} {sec : Secret Bytes}
    (h : (deliver f v (getSecret v, v)).1 = .ok sec) : current v = some sec := by
  rcases deliver_cases (Prod.ext h rfl : deliver f v (getSecret v, v) =
    (.ok sec, Prod.snd _)) with hget | ⟨herr, _⟩
  · exact getSecret_ok (congrArg Prod.fst hget).symm
  · cases herr

/-! ## The trail of a pod -/

/-- What the requests of an iteration have come to: the answer of the last `Load` since the pod
has decided, the clock for it, the answer of the hub and of the last `Get` of a `Save`, what a
`Save` has written, and whether one was refused. -/
structure Trail where
  load : Option (Except Err (Secret Bytes)) := none
  clock : Option Int := none
  renewed : Option Material := none
  held : Option (Except Err (Secret Bytes)) := none
  saved : Option (StrMap Bytes) := none
  refused : Bool := false

/-- The trail after a write of `data` and its answer. -/
def Trail.write (t : Trail) (data : StrMap Bytes) : Except Err (Secret Bytes) → Trail
  | .ok _ => { t with saved := some data }
  | .error _ => { t with refused := true }

def Trail.next (t : Trail) : (o : Op) → Ans o → Trail
  | .timer, _ => {}
  | .now .due, _ => {}
  | .now .adoption, now => { t with clock := some now }
  | .load, answer => { t with load := some answer, clock := none, held := none }
  | .renew, m => { t with renewed := m }
  | .reread, .ok sec => { t with held := some (.ok sec) }
  | .reread, .error e =>
    { t with held := some (.error e), refused := t.refused || decide (e ≠ .notFound) }
  | .createSecret sec, answer => t.write sec.data answer
  | .updateSecret sec, answer => t.write sec.data answer

def Identity.data (id : Identity) : StrMap Bytes := secretData id.keyPEM id.certPEM id.caBundle

/-- A pod begins, decides and renews only where `R` holds, it saves only where `P` holds, and it
writes on what it has read. -/
def rule (R : Trail → Prop) (P : Trail → Identity → Prop) (t : Trail) : Op → Prop
  | .timer => R t
  | .now .due => R t
  | .renew => R t
  | .reread => ∃ id, P t id
  | .createSecret sec => ∃ id, t.held = some (.error .notFound) ∧ sec.data = id.data ∧ P t id
  | .updateSecret sec =>
    ∃ h id, t.held = some (.ok h) ∧ sec = { h with data := id.data } ∧ P t id
  | .now .adoption => True
  | .load => True

theorem rule_mono {R R' : Trail → Prop} {P P' : Trail → Identity → Prop}
    (hR : ∀ t, R t → R' t) (hP : ∀ t id, P t id → P' t id) {t : Trail} {o : Op}
    (h : rule R P t o) : rule R' P' t o := by
  cases o with
  | now why =>
    cases why with
    | due => exact hR t h
    | adoption => trivial
  | load => trivial
  | timer | renew => exact hR t h
  | reread =>
    obtain ⟨id, hid⟩ := h
    exact ⟨id, hP t id hid⟩
  | createSecret sec =>
    obtain ⟨id, hheld, hdata, hid⟩ := h
    exact ⟨id, hheld, hdata, hP t id hid⟩
  | updateSecret sec =>
    obtain ⟨held, id, hheld, hsec, hid⟩ := h
    exact ⟨held, id, hheld, hsec, hP t id hid⟩

/-- The trail of a `Save` that began with the trail `t`. -/
structure Trail.Saved (t : Trail) (id : Identity) (t' : Trail) (r : Except SaveErr Unit) :
    Prop where
  load : t'.load = t.load
  clock : t'.clock = t.clock
  renewed : t'.renewed = t.renewed
  done : r = .ok () → t'.saved = some id.data
  failed : ∀ e, r = .error e → t'.refused = true

section Programs

variable {R : Trail → Prop} {P : Trail → Identity → Prop} {s : Spoke} {id : Identity} {t : Trail}

/-- The condition of a save is about the load and the renewal. -/
def Stable (P : Trail → Identity → Prop) : Prop :=
  ∀ t t' id, t'.load = t.load → t'.clock = t.clock → t'.renewed = t.renewed → P t id → P t' id

theorem saveOr_obeys (hP : Stable P) {again : Run (Except SaveErr Unit)} (h : P t id)
    (hagain : ∀ t', P t' id → t'.load = t.load → t'.clock = t.clock → t'.renewed = t.renewed →
      t'.refused = true → again.Obeys Trail.next (rule R P) (t.Saved id) t') :
    (saveOr again id).Obeys Trail.next (rule R P) (t.Saved id) t := by
  unfold saveOr
  refine ⟨⟨id, h⟩, ?_⟩
  intro answer
  cases answer with
  | ok existing =>
    refine ⟨⟨existing, id, rfl, rfl, hP t _ _ rfl rfl rfl h⟩, ?_⟩
    intro written
    cases written with
    | ok _ => exact ⟨rfl, rfl, rfl, fun _ => rfl, fun e he => by cases he⟩
    | error e => exact ⟨rfl, rfl, rfl, fun he => (by cases he), fun _ _ => rfl⟩
  | error e =>
    have hread : e ≠ .notFound → t.Saved id (t.next .reread (.error e)) (.error (.read e)) := by
      intro he
      exact ⟨rfl, rfl, rfl, fun h => (by cases h), fun _ _ => by simp [Trail.next, he]⟩
    cases e with
    | notFound =>
      refine ⟨⟨id, rfl, rfl, hP t _ _ rfl rfl rfl h⟩, ?_⟩
      intro written
      cases written with
      | ok _ => exact ⟨rfl, rfl, rfl, fun _ => rfl, fun e he => by cases he⟩
      | error e =>
        cases e with
        | alreadyExists => exact hagain _ (hP t _ _ rfl rfl rfl h) rfl rfl rfl rfl
        | _ => exact ⟨rfl, rfl, rfl, fun he => (by cases he), fun _ _ => rfl⟩
    | _ => exact hread (by simp)

theorem Trail.Saved.trans {t' t'' : Trail} {r : Except SaveErr Unit} (hload : t'.load = t.load)
    (hclock : t'.clock = t.clock) (hrenewed : t'.renewed = t.renewed) (h : t'.Saved id t'' r) :
    t.Saved id t'' r :=
  ⟨h.load.trans hload, h.clock.trans hclock, h.renewed.trans hrenewed, h.done, h.failed⟩

theorem save_obeys (hP : Stable P) (n : Nat) (h : P t id) :
    (save n id).Obeys Trail.next (rule R P) (t.Saved id) t := by
  induction n generalizing t with
  | zero =>
    refine saveOr_obeys hP h ?_
    intro t' _ hload hclock hrenewed hrefused
    exact ⟨hload, hclock, hrenewed, fun he => (by cases he), fun _ _ => hrefused⟩
  | succ n ih =>
    refine saveOr_obeys hP h ?_
    intro t' hp hload hclock hrenewed _
    refine (ih hp).mono (fun _ _ h => h) ?_
    intro t'' r hr
    exact hr.trans hload hclock hrenewed

/-- The identity that a `Load` of this Secret gives. -/
def storedIdentity (s : Spoke) (sec : Secret Bytes) : Option Identity :=
  (material sec).bind (loadIdentity s)

/-- What the pod that runs on `id` has made of the answer to a `Load`. -/
def Verdict (s : Spoke) (id : Identity) (answer : Except Err (Secret Bytes))
    (clock : Option Int) : Option Identity → Prop
  | none => ∀ sec stored, answer = .ok sec → storedIdentity s sec = some stored →
      ∃ now, clock = some now ∧ adoptable s id stored now = false
  | some stored => ∃ sec now, answer = .ok sec ∧ clock = some now ∧
      storedIdentity s sec = some stored ∧ adoptable s id stored now = true

/-- The trail of an adoption that began with the trail `t`. -/
structure Trail.Looked (s : Spoke) (id : Identity) (t t' : Trail) (r : Option Identity) :
    Prop where
  renewed : t'.renewed = t.renewed
  saved : t'.saved = t.saved
  refused : t'.refused = t.refused
  verdict : ∃ answer, t'.load = some answer ∧ Verdict s id answer t'.clock r

theorem adoptStoredIdentity_obeys :
    (adoptStoredIdentity s id).Obeys Trail.next (rule R P) (t.Looked s id) t := by
  have hnothing : ∀ answer : Except Err (Secret Bytes),
      (∀ sec, answer = .ok sec → storedIdentity s sec = none) →
      t.Looked s id (t.next .load answer) none := by
    intro answer hanswer
    refine ⟨rfl, rfl, rfl, answer, rfl, ?_⟩
    intro sec stored hok hstored
    rw [hanswer sec hok] at hstored
    cases hstored
  unfold adoptStoredIdentity load
  rw [call_bind]
  refine ⟨trivial, ?_⟩
  intro answer
  cases answer with
  | error e => cases e <;> exact hnothing _ fun sec hok => by cases hok
  | ok sec =>
    dsimp only
    cases hmaterial : material sec with
    | none =>
      refine hnothing _ ?_
      intro x hx
      cases hx
      simp [storedIdentity, hmaterial]
    | some m =>
      simp only [pure_eq, Prog.bind]
      cases hload : loadIdentity s m with
      | none =>
        refine hnothing _ ?_
        intro x hx
        cases hx
        simp [storedIdentity, hmaterial, hload]
      | some stored =>
        refine ⟨trivial, ?_⟩
        intro now
        have hstored : storedIdentity s sec = some stored := by
          simp [storedIdentity, hmaterial, hload]
        refine ⟨rfl, rfl, rfl, .ok sec, rfl, ?_⟩
        by_cases hadopt : adoptable s id stored now = true
        · rw [if_pos hadopt]
          exact ⟨sec, now, rfl, rfl, hstored, hadopt⟩
        rw [if_neg hadopt]
        intro sec' stored' hok hstored'
        cases hok
        rw [hstored] at hstored'
        cases hstored'
        exact ⟨now, rfl, by simpa using hadopt⟩

theorem renew_obeys (h : R t) :
    (renew s).Obeys Trail.next (rule R P) (fun t' r => ∃ got, t' = { t with renewed := got } ∧
      r = got.bind (loadIdentity s)) t := by
  unfold renew
  refine ⟨h, ?_⟩
  intro got
  cases got with
  | none => exact ⟨none, rfl, rfl⟩
  | some m => exact ⟨some m, rfl, rfl⟩

/-- The pod has rejected what it loaded, and the hub has answered with the identity `x`. -/
def Fits (s : Spoke) (id : Identity) (t : Trail) (x : Identity) : Prop :=
  ∃ answer m, t.load = some answer ∧ Verdict s id answer t.clock none ∧ t.renewed = some m ∧
    loadIdentity s m = some x

theorem fits_stable : Stable (Fits s id) := by
  rintro t t' x hload hclock hrenewed ⟨answer, m, h⟩
  rw [← hload, ← hclock, ← hrenewed] at h
  exact ⟨answer, m, h⟩

/-- A pod that has renewed has saved what it got, or has adopted what it found, or knows that the
Secret does not have it. -/
def Settled (s : Spoke) (id : Identity) (t : Trail) (pod : Pod) : Prop :=
  ∀ m x, t.renewed = some m → loadIdentity s m = some x →
    (pod.identityUnpersisted = true ∧ t.refused = true) ∨
    (pod.identity = some x ∧ t.saved = some x.data) ∨
    ∃ answer y, pod.identity = some y ∧ t.load = some answer ∧ Verdict s id answer t.clock (some y)

theorem renewIfDue_obeys (n : Nat) (pod : Pod) (h : R t) (hR : ∀ t, t.renewed = none → R t) :
    (renewIfDue s n id pod).Obeys Trail.next (rule R (Fits s id)) (Settled s id) t := by
  have hidle : ∀ {t : Trail} {pod : Pod}, t.renewed = none → Settled s id t pod := by
    intro t pod hnone m x hm
    rw [hnone] at hm
    cases hm
  unfold renewIfDue
  rw [call_bind]
  refine ⟨h, ?_⟩
  intro now
  dsimp only
  split
  · exact hidle rfl
  refine adoptStoredIdentity_obeys.bind ?_
  intro t₁ adopted hlooked
  cases adopted with
  | some adopted => exact hidle hlooked.renewed
  | none =>
    obtain ⟨answer, hload, hverdict⟩ := hlooked.verdict
    refine (renew_obeys (hR t₁ hlooked.renewed)).bind ?_
    rintro _ _ ⟨got, rfl, rfl⟩
    cases got with
    | none => exact hidle rfl
    | some m =>
      rw [Option.bind_some]
      cases hloads : loadIdentity s m with
      | none =>
        intro m' x hm hx
        cases hm
        rw [hloads] at hx
        cases hx
      | some renewed =>
        have hfits : Fits s id { t₁ with renewed := some m } renewed :=
          ⟨answer, m, hload, hverdict, rfl, hloads⟩
        refine (save_obeys fits_stable n hfits).bind ?_
        intro t₂ r hsaved
        have hrenewed : t₂.renewed = some m := hsaved.renewed
        cases r with
        | ok _ =>
          intro m' x hm hx
          rw [hrenewed] at hm
          cases hm
          rw [hloads] at hx
          cases hx
          exact .inr (.inl ⟨rfl, hsaved.done rfl⟩)
        | error e =>
          refine adoptStoredIdentity_obeys.bind ?_
          intro t₃ adopted hlooked
          cases adopted with
          | some adopted =>
            obtain ⟨answer, hload, hverdict⟩ := hlooked.verdict
            intro m' x _ _
            exact .inr (.inr ⟨answer, adopted, rfl, hload, hverdict⟩)
          | none =>
            intro m' x _ _
            exact .inl ⟨rfl, hlooked.refused.trans (hsaved.failed e rfl)⟩

/-- Every save of the loop comes after a `Load` of its iteration, and after the decision. -/
theorem iteration_obeys (n : Nat) (pod : Pod) :
    (iteration s n pod).Obeys Trail.next (rule (fun _ => True) fun t _ => t.load ≠ none)
      (fun _ _ => True) t := by
  have hdue : ∀ {t : Trail} {id : Identity} {pod : Pod}, (renewIfDue s n id pod).Obeys Trail.next
      (rule (fun _ => True) fun t _ => t.load ≠ none) (fun _ _ => True) t := by
    intro t id pod
    refine (renewIfDue_obeys n pod trivial fun _ _ => trivial).mono ?_ fun _ _ _ => trivial
    intro t o
    apply rule_mono (fun _ h => h)
    rintro t x ⟨answer, _, hload, _⟩ hnone
    rw [hload] at hnone
    cases hnone
  have hstable : Stable fun t _ => t.load ≠ none := by
    intro t t' _ hload _ _ h
    rw [hload]
    exact h
  unfold iteration
  refine ⟨trivial, ?_⟩
  intro _
  split
  · trivial
  split
  · refine adoptStoredIdentity_obeys.bind ?_
    intro t₁ adopted hlooked
    cases adopted with
    | some adopted => trivial
    | none =>
      obtain ⟨answer, hload, _⟩ := hlooked.verdict
      refine (save_obeys hstable n (by simp [hload])).bind ?_
      intro t₂ r _
      cases r with
      | ok | error => exact hdue
  · exact hdue

theorem renewLoop_obeys (n rounds : Nat) (pod : Pod) :
    (renewLoop s n rounds pod).Obeys Trail.next (rule (fun _ => True) fun t _ => t.load ≠ none)
      (fun _ _ => True) t := by
  induction rounds generalizing pod t with
  | zero => trivial
  | succ rounds ih => exact (iteration_obeys n pod).bind fun _ pod _ => ih pod

end Programs

/-! ## The events behind a trail -/

section Trails

variable {evs : List (PodEvent ι)}

/-- The operation neither begins an iteration nor decides. -/
def Op.goesOn (o : Op) : Prop := o ≠ .timer ∧ o ≠ .now .due

variable {answer : Except Err (Secret Bytes)}

/-- The `Load` behind a trail is the last one since the pod has decided. -/
theorem load_of_outcome (h : (outcome Trail.next {} evs).load = some answer) :
    ∃ x l y, evs = x ++ l :: y ∧ (∃ e v v', l = ⟨.load, e, answer, v, v'⟩) ∧
      ∀ ev ∈ y, ev.op.goesOn ∧ ev.op ≠ .load := by
  refine exists_setter (fun t : Trail => t.load = some answer) _
    (fun o : Op => o.goesOn ∧ o ≠ .load) (by simp) ?_ h
  rintro t ⟨o, e, a, v, v'⟩ h
  cases o with
  | timer => cases h
  | now why =>
    cases why with
    | due => cases h
    | adoption => exact .inr ⟨by simp [Op.goesOn], h⟩
  | load =>
    cases h
    exact .inl ⟨e, v, v', rfl⟩
  | _ => cases a <;> exact .inr ⟨by simp [Op.goesOn], h⟩

/-- The `Get` of a `Save` behind a trail is one since the pod has decided. -/
theorem held_of_outcome (h : (outcome Trail.next {} evs).held = some answer) :
    ∃ x r y, evs = x ++ r :: y ∧ (∃ e v v', r = ⟨.reread, e, answer, v, v'⟩) ∧
      ∀ ev ∈ y, ev.op.goesOn := by
  refine exists_setter (fun t : Trail => t.held = some answer) _ Op.goesOn (by simp) ?_ h
  rintro t ⟨o, e, a, v, v'⟩ h
  cases o with
  | now why =>
    cases why with
    | due => cases h
    | adoption => exact .inr ⟨by simp [Op.goesOn], h⟩
  | timer | load => cases h
  | reread =>
    left
    cases a <;>
    · cases h
      exact ⟨e, v, v', rfl⟩
  | _ => cases a <;> exact .inr ⟨by simp [Op.goesOn], h⟩

/-- What holds of a trail and not of an empty one was brought about by an event. -/
theorem event_of_outcome (φ : Trail → Prop) (sets : PodEvent ι → Prop) (hempty : ¬ φ {})
    (hstep : ∀ t ev, φ (t.next ev.op ev.ans) → sets ev ∨ φ t)
    (h : φ (outcome Trail.next {} evs)) : ∃ ev ∈ evs, sets ev := by
  obtain ⟨x, ev, y, hevs, hset, _⟩ := exists_setter φ sets (fun _ => True) hempty
    (fun t ev hφ => (hstep t ev hφ).imp_right fun ht => ⟨trivial, ht⟩) h
  exact ⟨ev, by simp [hevs], hset⟩

theorem renewed_of_outcome {m : Material} (h : (outcome Trail.next {} evs).renewed = some m) :
    ∃ ev ∈ evs, ∃ e v v', ev = ⟨.renew, e, some m, v, v'⟩ := by
  refine event_of_outcome (fun t => t.renewed = some m) _ (by simp) ?_ h
  rintro t ⟨o, e, a, v, v'⟩ h
  cases o with
  | timer => cases h
  | now why => cases why <;> first | cases h | exact .inr h
  | renew =>
    cases h
    exact .inl ⟨e, v, v', rfl⟩
  | _ => cases a <;> exact .inr h

theorem clock_of_outcome {now : Int} (h : (outcome Trail.next {} evs).clock = some now) :
    ∃ ev ∈ evs, ∃ e v v', ev = ⟨.now .adoption, e, now, v, v'⟩ := by
  refine event_of_outcome (fun t => t.clock = some now) _ (by simp) ?_ h
  rintro t ⟨o, e, a, v, v'⟩ h
  cases o with
  | timer | load => cases h
  | now why =>
    cases why with
    | due => cases h
    | adoption =>
      cases h
      exact .inl ⟨e, v, v', rfl⟩
  | _ => cases a <;> exact .inr h

/-- The event is a write of `data`. -/
inductive Writes (data : StrMap Bytes) (answer : Except Err (Secret Bytes)) :
    PodEvent ι → Prop
  | create {sec : Secret Bytes} {e : Env} {v v' : Server ι} (h : sec.data = data) :
    Writes data answer ⟨.createSecret sec, e, answer, v, v'⟩
  | update {sec : Secret Bytes} {e : Env} {v v' : Server ι} (h : sec.data = data) :
    Writes data answer ⟨.updateSecret sec, e, answer, v, v'⟩

theorem saved_of_outcome {data : StrMap Bytes} (h : (outcome Trail.next {} evs).saved = some data) :
    ∃ ev ∈ evs, ∃ stored, Writes data (.ok stored) ev := by
  refine event_of_outcome (fun t => t.saved = some data) _ (by simp) ?_ h
  rintro t ⟨o, e, a, v, v'⟩ h
  cases o with
  | timer => cases h
  | now why => cases why <;> first | cases h | exact .inr h
  | createSecret sec =>
    cases a with
    | ok stored => exact .inl ⟨stored, .create (Option.some.inj h)⟩
    | error err => exact .inr h
  | updateSecret sec =>
    cases a with
    | ok stored => exact .inl ⟨stored, .update (Option.some.inj h)⟩
    | error err => exact .inr h
  | _ => cases a <;> exact .inr h

/-- A refusal comes from a failed read or a failed write. -/
theorem refused_of_outcome (h : (outcome Trail.next {} evs).refused = true) :
    ∃ ev ∈ evs, (∃ data err, Writes data (.error err) ev) ∨
      ∃ e err v v', ev = ⟨.reread, e, .error err, v, v'⟩ ∧ err ≠ .notFound := by
  refine event_of_outcome (fun t => t.refused = true) _ (by simp) ?_ h
  rintro t ⟨o, e, a, v, v'⟩ h
  cases o with
  | timer => cases h
  | now why => cases why <;> first | cases h | exact .inr h
  | reread =>
    cases a with
    | ok sec => exact .inr h
    | error err =>
      by_cases hold : t.refused = true
      · exact .inr hold
      · refine .inl (.inr ⟨e, err, v, v', rfl, ?_⟩)
        simpa [Trail.next, hold] using h
  | createSecret sec =>
    cases a with
    | ok stored => exact .inr h
    | error err => exact .inl (.inl ⟨_, err, .create rfl⟩)
  | updateSecret sec =>
    cases a with
    | ok stored => exact .inr h
    | error err => exact .inl (.inl ⟨_, err, .update rfl⟩)
  | _ => cases a <;> exact .inr h

end Trails

end prom_fleet.renewal
