-- The redemption of enrollment tokens at any number of replicas: `handleEnroll` signs a
-- certificate, burns the token in the store, and answers with the certificate only if the
-- burn went through. Other calls of the store run between its steps.
import PromFleet.PruneLaws
import PromFleet.SerialLaws

namespace prom_fleet.hubapi

open interleave kube store secretstore fleet

variable {ρ ι Blob : Type}

/-! ## The handler -/

/-- Why the CA signs no certificate. -/
inductive IssueErr where
  | csrInvalid
  | invalidClusterID
  | internal
  deriving DecidableEq

/-- A request to `/enroll`: the KID of the authenticated principal, whether the body holds a
certificate signing request, and what the CA will answer to it for each cluster: the serial of
a certificate, or an error. -/
structure EnrollRequest where
  principal : Option String
  csr : Bool
  issue : String → Except IssueErr String

/-- The answer to a request. Only `issued` carries a certificate; it names the
key that was burned and the serial. -/
inductive EnrollAnswer where
  | unauthenticated
  | badRequest
  | loadFailed
  | forbidden
  | replay
  | rejected
  | issueFailed
  | burnFailed
  | issued (kid serial : String)
  deriving DecidableEq

/-- `Store.GetKey` of the Secret-backed store. -/
def getKey (S : Setup ρ Op Reply Blob) (r : ρ) (kid : String) : Call ρ Op Blob (Option Key) := do
  match ← read S r with
  | .error _ => return none
  | .ok st => return (store.getKey kid st).toOption

/-- `isConflict` on the error of a burn. -/
def isConflict : Exit Reply Blob → Bool
  | .refused e => decide (e.sentinel = .enrollmentUsed) || decide (e.sentinel = .alreadyExists)
  | _ => false

/-- The answer for the result of the burn: a certificate only if it went through. -/
def burnAnswer (kid serial : String) : Exit Reply Blob → EnrollAnswer
  | .committed _ _ => .issued kid serial
  | .unchanged _ => .issued kid serial
  | x => if isConflict x then .replay else .burnFailed

/-- `handleEnroll` at replica `r`. -/
def handleEnroll (S : Setup ρ Op Reply Blob) (r : ρ) (q : EnrollRequest) :
    Call ρ Op Blob EnrollAnswer := do
  match q.principal with
  | none => return .unauthenticated
  | some pkid =>
    if !q.csr then return .badRequest
    match ← getKey S r pkid with
    | none => return .loadFailed
    | some key =>
      match key.enrollment with
      | none => return .forbidden
      | some g =>
        if g.clusterID = "" then return .forbidden
        if !g.reusable && g.usedAt.isSome then return .replay
        match q.issue g.clusterID with
        | .error .internal => return .issueFailed
        | .error _ => return .rejected
        | .ok serial =>
          let at_ ← now r
          return burnAnswer key.kid serial (← mutate S r (.burnEnrollment key.kid serial at_))

/-! ## The system -/

/-- A request of the hub: an enrollment, or any other call of the store. -/
inductive HubRequest (ρ : Type) where
  | enroll (r : ρ) (q : EnrollRequest)
  | store (q : Request ρ Op)

inductive HubAnswer (Blob : Type) where
  | enrolled (x : EnrollAnswer)
  | stored (x : Outcome Reply Blob)

def HubRequest.program (S : Setup ρ Op Reply Blob) :
    HubRequest ρ → Call ρ Op Blob (HubAnswer Blob)
  | .enroll r q => return .enrolled (← handleEnroll S r q)
  | .store q => return .stored (← q.program S)

def hubSystem (S : Setup ρ Op Reply Blob) (start : Option (Secret Blob))
    (calls : ι → HubRequest ρ) : Conf (@Ans ρ Op Blob) ι (World ρ ι Op Blob) (HubAnswer Blob) :=
  { shared := initial start, thread := fun i => (calls i).program S }

/-- What a request may write: an enrollment a burn, another call its mutation. -/
def hubPlan (start : Option (Secret Blob)) (calls : ι → HubRequest ρ) : Plan ι Op Blob :=
  { start := start
    carries := fun i m =>
      match calls i with
      | .enroll _ _ => ∃ kid serial at_, m = .burnEnrollment kid serial at_
      | .store (.mutate _ m') => m = m'
      | .store _ => False }

/-! ## Its spec -/

section Spec

variable [DecidableEq ρ] [DecidableEq ι] {S : Setup ρ Op Reply Blob}
  {plan : Plan ι Op Blob} {I : World ρ ι Op Blob → Prop}
  {C : ι → Op ρ Op Blob → Env → World ρ ι Op Blob → Prop} {i : ι}

variable (C i) in
/-- The server took an update of the call, and the answer to it was dropped. -/
def Dropped : Prop :=
  ∃ sec m t e w, C i (.updateSecret sec m t) e w ∧ e.fault = .dropped

/-- The document of a stored Secret holds the key under the KID. -/
def Held (S : Setup ρ Op Reply Blob) (kid : String) (key : Key) (w : World ρ ι Op Blob) : Prop :=
  ∃ sec st, Stored sec w.server ∧ decode S.json (S.document sec) = .ok st ∧
    store.getKey kid st = .ok key

variable (S C i) in
/-- What a redemption has done when it ends in `w`: with a certificate it has burned the key of
the principal, and without one it has written nothing, unless an answer was dropped. -/
def Enrolled (q : EnrollRequest) (x : EnrollAnswer) (w : World ρ ι Op Blob) : Prop :=
  match x with
  | .issued kid serial => ∃ pkid key at_ t, q.principal = some pkid ∧ Held S pkid key w ∧
      key.kid = kid ∧ commitsOf i w = [(.burnEnrollment kid serial at_, t)]
  | _ => commitsOf i w = [] ∨ Dropped C i

variable {key : Key} {kid : String} {w : World ρ ι Op Blob}

omit [DecidableEq ρ] [DecidableEq ι] in
theorem Held.mono {w' : World ρ ι store.Op Blob} (h : Held S kid key w) (hgrow : Grows w w') :
    Held S kid key w' := by
  obtain ⟨sec, st, hsec, hst⟩ := h
  exact ⟨sec, st, hsec.mono hgrow.1, hst⟩

variable {q : EnrollRequest}

theorem unissued_spec {x : EnrollAnswer} (hx : ∀ kid serial, x ≠ .issued kid serial)
    (hcom : commitsOf i w = [] ∨ Dropped C i) :
    Fulfils S plan I C i (.done x) (Enrolled S C i q) w := by
  refine holds_done fun t _ hc => ?_
  have hcom' : commitsOf i t = [] ∨ Dropped C i := hcom.imp_left hc.trans
  cases x with
  | issued kid serial => exact absurd rfl (hx kid serial)
  | _ => exact hcom'

variable {at_ : Int} {pkid serial : String}

theorem issued_spec {t : Int} (hq : q.principal = some pkid) (hheld : Held S pkid key w)
    (hcom : commitsOf i w = [(.burnEnrollment key.kid serial at_, t)]) :
    Fulfils S plan I C i (.done (.issued key.kid serial)) (Enrolled S C i q) w :=
  holds_done fun _ hgrow hc => ⟨pkid, key, at_, t, hq, hheld.mono hgrow, rfl, hc.trans hcom⟩

theorem getKey_spec (hI : Keeps S plan I C) (r : ρ) (kid : String) (hinv : (pact S plan I C).inv w)
    : Fulfils S plan I C i (getKey S r kid)
      (fun x w' => commitsOf i w' = commitsOf i w ∧ ∀ key, x = some key → Held S kid key w') w := by
  refine (read_spec hI r w).seq hinv fun x v _ hread => ?_
  obtain ⟨_, hcom, hsrc⟩ := hread
  cases x with
  | error e => exact holds_done fun t _ hc => ⟨hc.trans hcom, fun key h => by cases h⟩
  | ok st =>
    obtain ⟨sec, hsec, _, hst⟩ := hsrc st rfl
    refine holds_done fun t hgrow hc => ⟨hc.trans hcom, fun key h => ?_⟩
    refine ⟨sec, st, hsec.stored.mono hgrow.1, hst, ?_⟩
    cases hk : store.getKey kid st with
    | error e => rw [hk] at h; cases h
    | ok k => rw [hk] at h; cases h; rfl

theorem burn_changes {now : Int} {s : State} {a : Applied Reply}
    (h : (Op.burnEnrollment kid serial at_).apply now s = .ok a) : a.changed = true := by
  obtain ⟨b, hb, rfl⟩ := map_reply_ok h
  obtain ⟨_, _, _, _, _, _, _, hch, _⟩ := burnEnrollment_cases hb
  exact hch

theorem burnAnswer_spec (hsem : ∀ m now s, S.sem m now s = m.apply now s) {r : ρ}
    {u : World ρ ι Op Blob} {x : Exit Reply Blob} (hq : q.principal = some pkid)
    (hheld : Held S pkid key u)
    (hx : Mutated S plan I C i r (.burnEnrollment key.kid serial at_) w x u) :
    Fulfils S plan I C i (.done (burnAnswer key.kid serial x)) (Enrolled S C i q) u := by
  cases x with
  | committed b sec =>
    obtain ⟨_, t, _, hcom⟩ := hx
    exact issued_spec hq hheld hcom
  | unchanged b =>
    -- a burn that succeeds always changes the document
    obtain ⟨_, _, _, _, a, _, _, ha, hch, _⟩ := hx
    rw [hsem] at ha
    rw [burn_changes ha] at hch
    cases hch
  | updateFailed e =>
    refine unissued_spec (by simp [burnAnswer, isConflict]) (hx.imp_right ?_)
    rintro ⟨sec, t, e, v, hC, hf⟩
    exact ⟨sec, _, t, e, v, hC, hf⟩
  | refused e =>
    refine unissued_spec (fun kid' serial' => ?_) (.inl hx.1)
    simp only [burnAnswer]
    split <;> simp
  | _ => exact unissued_spec (by simp [burnAnswer, isConflict]) (.inl hx)

theorem handleEnroll_spec (hI : Keeps S plan I C) (hsem : ∀ m now s, S.sem m now s = m.apply now s)
    (r : ρ) (q : EnrollRequest)
    (hm : ∀ kid serial at_, plan.carries i (.burnEnrollment kid serial at_))
    (hinv : (pact S plan I C).inv w) (hcom : commitsOf i w = []) :
    Fulfils S plan I C i (handleEnroll S r q) (Enrolled S C i q) w := by
  unfold handleEnroll
  cases hq : q.principal with
  | none => exact unissued_spec (by simp) (.inl hcom)
  | some pkid =>
    simp only
    split
    · exact unissued_spec (by simp) (.inl hcom)
    refine (getKey_spec hI r pkid hinv).seq hinv fun x v hinv' hget => ?_
    obtain ⟨hcv, hkey⟩ := hget
    have hnone : commitsOf i v = [] := hcv.trans hcom
    cases x with
    | none => exact unissued_spec (by simp) (.inl hnone)
    | some key =>
      have hheld := hkey key rfl
      simp only
      split
      · exact unissued_spec (by simp) (.inl hnone)
      rename_i g hg
      split
      · exact unissued_spec (by simp) (.inl hnone)
      split
      · exact unissued_spec (by simp) (.inl hnone)
      split
      · exact unissued_spec (by simp) (.inl hnone)
      · exact unissued_spec (by simp) (.inl hnone)
      rename_i serial hserial
      simp only [Prog.call_bind, Prog.pure_eq]
      refine holds_op hI (fun _ _ _ => trivial) fun t e at_ u hnow => ?_
      have hnone' : commitsOf i u = [] := (hnow.commits (by simp)).trans hnone
      have hheld' := hheld.mono hnow.all
      refine .bind ⟨hnow.good', hnow.kept'⟩ ?_
      refine (Holds.frame (fun _ _ h hf => hf.mono h.1) (fun _ _ h hf => hf.mono h.1)
        hheld' (mutate_spec hI r (hm _ _ _) hnone')).mono fun x v' _ hx => ?_
      exact burnAnswer_spec hsem hq hx.2 hx.1

/-! ## Its runs -/

variable (S plan I C i w) in
/-- What a request that began in `w` has done when it ends in `w'`. -/
def HubPromise : HubRequest ρ → HubAnswer Blob → World ρ ι Op Blob → Prop
  | .enroll _ q, .enrolled x, w' => Enrolled S C i q x w'
  | .store q, .stored x, w' => Promise S plan I C i w q x w'
  | _, _, _ => False

variable {start : Option (Secret Blob)} {calls : ι → HubRequest ρ}

theorem hubSystem_spec (hI : Keeps S (hubPlan start calls) I C)
    (hsem : ∀ m now s, S.sem m now s = m.apply now s)
    (hinv : (pact S (hubPlan start calls) I C).inv (initial start)) (i : ι) :
    Holds (machine S) (pact S (hubPlan start calls) I C) i ((hubSystem S start calls).thread i)
      (HubPromise S (hubPlan start calls) I C i (initial start) (calls i))
      (hubSystem S start calls).shared := by
  have hcom : commitsOf i (initial start : World ρ ι Op Blob) = [] := commitsOf_initial start i
  unfold hubSystem
  cases hc : calls i with
  | enroll r q =>
    simp only [hc]
    refine .map (handleEnroll_spec hI hsem r q (fun kid serial at_ => ?_) hinv hcom)
    simp only [hubPlan, hc]
    exact ⟨kid, serial, at_, rfl⟩
  | store q =>
    simp only [hc]
    refine .map (program_spec hI (fun r m hq => ?_) hcom)
    simp only [hubPlan, hc, hq]

/-- Every state of a run keeps the invariant, and every request that has ended
did what it promised. -/
theorem hubPromise_of_run (hsem : ∀ m now s, S.sem m now s = m.apply now s)
    (hv : Versioned start) {ls : List (ι × Env)}
    {c : Conf (@Ans ρ Op Blob) ι (World ρ ι Op Blob) (HubAnswer Blob)}
    (hm : Meets (machine S) C (hubSystem S start calls) ls)
    (hr : run (machine S) (hubSystem S start calls) ls = some c) :
    Good S (hubPlan start calls) c.shared ∧ ∀ i x, c.thread i = .done x →
      HubPromise S (hubPlan start calls) (fun _ => True) C i (initial start) (calls i) x
        c.shared := by
  have hinv : (pact S (hubPlan start calls) (fun _ => True) C).inv (initial start) :=
    ⟨good_initial (hubPlan start calls) hv, trivial⟩
  have hspec := hubSystem_spec (keeps_true S (hubPlan start calls) C) hsem hinv
  obtain ⟨hinv', _⟩ := run_holds hinv hspec hm hr
  refine ⟨hinv'.1, fun i x hd => ?_⟩
  exact done_of_run hinv hspec hm hr hd

end Spec

end prom_fleet.hubapi
