-- The verifier together with its limiter of failures. A call that finds no answer in the caches
-- asks the bucket of its source and its KID, and its answer is a failure or a success of that
-- bucket. Whoever knows a KID can spend the bucket that they share with the owner of the key.
import PromFleet.FailureLimiter
import PromFleet.History
import PromFleet.VerifierLaws

namespace prom_fleet.authn

open interleave fleet store lru Option

/-! ## The machine -/

inductive LimiterOp where
  | allow (src : String) (now : Int)
  | fail (src : String) (now : Int)
  | succeed (src : String) (now : Int)

abbrev LimiterAns : LimiterOp → Type
  | .allow _ _ => Bool
  | .fail _ _ => Unit
  | .succeed _ _ => Unit

def limiterAct (r : Rounding) : (o : LimiterOp) → FailureLimiter → LimiterAns o × FailureLimiter
  | .allow src now, l => l.allow r src now
  | .fail src now, l => ((), l.fail r src now)
  | .succeed src now, l => ((), l.succeed src now)

def limiterMachine {ι : Type} (r : Rounding) : Machine LimiterAns ι Env FailureLimiter where
  act _ o _ l := some (limiterAct r o l)

variable {D ι : Type} [DecidableEq D]

/-- The operations of the verifier with a clock that may show anything. -/
def freeAct : (o : Op D) → Env → World D → Option (Ans o × World D)
  | .clock, e, w => some (e.now, { w with time := e.now })
  | o, e, w => act o e w

def freeMachine : Machine (@Ans D) ι Env (World D) where
  act _ o e w := freeAct o e w

def limitedMachine (r : Rounding) :
    Machine (Either (@Ans D) LimiterAns) ι Env (World D × FailureLimiter) :=
  freeMachine.sum (limiterMachine r)

/-! ## The programs -/

def limiterKey (ip kid : String) : String := if ip = "" then "" else ip ++ "\x00" ++ kid

namespace limited

abbrev Call (D α : Type) := Prog (Either (@Ans D) LimiterAns) α

variable (src : String)

abbrev allow (now : Int) : Call D Bool :=
  Prog.call (Sum.inr (LimiterOp.allow src now))
abbrev limiterFail (now : Int) : Call D Unit :=
  Prog.call (Sum.inr (LimiterOp.fail src now))
abbrev limiterSucceed (now : Int) : Call D Unit :=
  Prog.call (Sum.inr (LimiterOp.succeed src now))

def fail (now : Int) (sum : D) (reason : Reason) (err : VerifyErr) :
    Call D Unit := do
  (negPut sum { err := err, reason := reason, cachedAt := now }).inl
  limiterFail src now

variable (V : Verifier D)

/-- The part of `verify` behind the caches. -/
def verifyUncached (sum : D) (src kid : String) (secret : Bytes)
    (want : KeyClass) (epoch? : Option Nat) (now : Int) : Call D (Except VerifyErr Verified) := do
  let allowed ← limited.allow src now
  if !allowed then return .error .rateLimited
  else
    match epoch? with
    | none =>
      limiterFail src now
      return .error .unauthenticated
    | some epoch =>
      match ← (verifyAgainstStore V kid secret want now).inl with
      | .error (reason, err) =>
        fail src now sum reason err
        return .error err
      | .ok (p, exp) =>
        let p := { p with epoch := epoch }
        (posPut sum { principal := p, keyExpiry := exp, cachedAt := now, epoch := epoch }).inl
        (negRemove sum).inl
        limiterSucceed src now
        return .ok { principal := p, expiry := exp, clock := now }

variable (ip raw : String)

/-- `Verifier.verify` from its reading of the clock on. -/
def verifyAt (want : KeyClass) (now : Int) :
    Call D (Except VerifyErr Verified) := do
  match V.parse raw with
  | none => return .error .unauthenticated
  | some (cls, kid, secret) =>
    if cls ≠ want then return .error .wrongClass
    else
      let src := limiterKey ip kid
      match ← syncEpoch.inl with
      | none => verifyUncached V (V.sum256 raw) src kid secret want none now
      | some epoch =>
        match ← (fromCache V (V.sum256 raw) epoch now).inl with
        | some decision => return decision
        | none => verifyUncached V (V.sum256 raw) src kid secret want (some epoch) now

def verify (want : KeyClass) : Call D (Except VerifyErr Verified) := do
  let now ← clock.inl
  verifyAt V ip raw want now

def program : Request → Call D Outcome
  | .verify ip raw want => return .verified (← verify V ip raw want)
  | .mutate e => do
    (authn.apply e).inl
    return .mutated

def system (start : State) (time : Int) (calls : ι → Request) :
    Conf (Either (@Ans D) LimiterAns) ι (World D × FailureLimiter) Outcome :=
  { shared := (initial V start time, newFailureLimiter), thread := fun i => program V (calls i) }

/-! ## Who is let through -/

/-- No refusal of the limiter is in the negative cache. -/
def NegClean (w : World D) : Prop := ∀ x ∈ w.neg.entries, x.2.err ≠ .rateLimited

/-- What the programs keep of the verifier. -/
def cleanPact : Pact (Op D) ι Env (World D) where
  inv := NegClean
  cond _ _ _ _ := True
  rely _ _ _ := True
  guar _ _ _ := True
  rely_refl _ _ := trivial
  rely_trans _ _ _ _ _ _ := trivial
  rely_of_guar _ _ _ _ _ _ _ _ := trivial

/-- When call `i` asks the limiter, its bucket has had no more failures than the burst since
its last success, and the clock is not before the zero time. -/
def WithinBurst (i : ι) : ι → Op D ⊕ LimiterOp → Env → World D × FailureLimiter → Prop
  | j, .inr (.allow src now), _, s => j = i → s.2.failures src ≤ failureBurst ∧ 0 ≤ now
  | _, _, _, _ => True

/-- What the programs keep of the verifier and its limiter. -/
def Clean (s : World D × FailureLimiter) : Prop := NegClean s.1 ∧ s.2.Counted

def burstPact (i : ι) : Pact (Op D ⊕ LimiterOp) ι Env (World D × FailureLimiter) where
  inv := Clean
  cond := WithinBurst i
  rely _ _ _ := True
  guar _ _ _ := True
  rely_refl _ _ := trivial
  rely_trans _ _ _ _ _ _ := trivial
  rely_of_guar _ _ _ _ _ _ _ _ := trivial

/-- The operation puts no refusal of the limiter into the negative cache. -/
def keepsClean : Op D → Prop
  | .negPut _ e => e.err ≠ .rateLimited
  | _ => True

variable {o : Op D}

theorem NegClean.step {e : Env} {a : Ans o} {w u : World D} (h : NegClean w) (ho : keepsClean o)
    (hact : freeAct o e w = some (a, u)) : NegClean u := by
  cases o with
  | negPut sum entry =>
    cases hact
    intro x hx
    rcases mem_put hx with rfl | hold
    · exact ho
    · exact h x hold
  | negGet sum =>
    cases hact
    exact fun x hx => h x (mem_get hx)
  | negRemove sum =>
    cases hact
    exact fun x hx => h x (mem_remove hx)
  | negPurge =>
    cases hact
    exact fun x hx => absurd hx List.not_mem_nil
  | _ =>
    cases hact
    exact h

variable {α : Type} {i j : ι} {w : World D} {s : World D × FailureLimiter} {Q : α → World D → Prop}

abbrev Cleanly (j : ι) := Holds (α := α) freeMachine (cleanPact : Pact (Op D) ι Env (World D)) j

theorem clean_op {k : Ans o → Prog (@Ans D) α} (ho : keepsClean o)
    (h : ∀ t e a u, NegClean t → freeAct o e t = some (a, u) →
      Cleanly j (k a) Q u) : Cleanly j (.op o k) Q w :=
  fun t _ ht e _ a u hu => ⟨ht.step ho hu, trivial, h t e a u ht hu⟩

theorem fromNegative_clean (sum : D) (now : Int) : Cleanly j (fromNegative V sum now)
      (fun x _ => x ≠ some (.error .rateLimited)) w := by
  rw [fromNegative, Prog.call_bind]
  refine clean_op trivial fun t env a u ht hact => ?_
  cases a with
  | none => exact fun _ _ _ h => by cases h
  | some e =>
    have hclean : e.err ≠ .rateLimited := by
      have hget : (get sum t.neg).1 = some e := congrArg Prod.fst (Option.some.inj hact)
      rw [get_value] at hget
      exact ht _ (mem_of_find hget)
    dsimp only
    split
    · intro _ _ _ h
      exact hclean (Except.error.inj (Option.some.inj h))
    · exact clean_op trivial fun _ _ _ _ _ _ _ _ _ h => by cases h

theorem fromCache_clean (sum : D) (epoch : Nat) (now : Int) : Cleanly j (fromCache V sum epoch now)
      (fun x _ => x ≠ some (.error .rateLimited)) w := by
  rw [fromCache, Prog.call_bind]
  refine clean_op trivial fun t env a u ht hact => ?_
  cases a with
  | none => exact fromNegative_clean V sum now
  | some e =>
    dsimp only
    split
    · exact clean_op trivial fun _ _ _ _ _ _ => fromNegative_clean V sum now
    split
    · exact clean_op trivial fun _ _ _ _ _ _ _ _ _ h => by cases h
    · exact fun _ _ _ h => by cases h

theorem syncEpoch_clean : Cleanly j syncEpoch (fun _ _ => True) w := by
  rw [syncEpoch, Prog.call_bind]
  refine clean_op trivial fun t env a u ht hact => ?_
  cases a with
  | none => exact fun _ _ _ => trivial
  | some epoch =>
    refine clean_op trivial fun t env changed u ht hact => ?_
    cases changed with
    | false => exact fun _ _ _ => trivial
    | true =>
      exact clean_op trivial fun _ _ _ _ _ _ => clean_op trivial fun _ _ _ _ _ _ _ _ _ => trivial

theorem verifyAgainstStore_clean (kid : String) (secret : Bytes) (want : KeyClass)
    (now : Int) : Cleanly j (verifyAgainstStore V kid secret want now)
      (fun x _ => ∀ reason err, x = .error (reason, err) → err ≠ .rateLimited) w := by
  have hend : ∀ (x : Except (Reason × VerifyErr) (Principal × Int)) (w : World D),
      (∀ reason err, x = .error (reason, err) → err ≠ .rateLimited) →
      Cleanly j (.done x)
        (fun x _ => ∀ reason err, x = .error (reason, err) → err ≠ .rateLimited) w :=
    fun x w hx _ _ _ => hx
  rw [verifyAgainstStore, Prog.call_bind]
  refine clean_op trivial fun t env a u ht hact => ?_
  cases a with
  | error e => cases e <;> exact hend _ _ (by rintro _ _ ⟨⟩; simp)
  | ok key =>
    dsimp only
    split_ifs <;> exact hend _ _ (by rintro _ _ ⟨⟩ <;> simp)

variable {r : Rounding}

abbrev Spared (r : Rounding) (i j : ι) :=
  Holds (α := α) (limitedMachine (D := D) r) (burstPact i) j

theorem clean_inl {p : Prog (@Ans D) α} (h : Cleanly j p Q s.1) :
    Spared r i j p.inl (fun a t => Q a t.1) s :=
  Holds.inl (P := burstPact i) (fun _ h => h.1) (fun _ _ _ => trivial) (fun _ _ _ _ _ => trivial)
    (fun _ _ hs hu _ => ⟨⟨hu, hs.2⟩, trivial⟩) h

theorem limiterAct_counted (r : Rounding) (o : LimiterOp) {l : FailureLimiter} (h : l.Counted) :
    (limiterAct r o l).2.Counted := by
  cases o with
  | allow src now => exact h.allow
  | fail src now => exact h.fail
  | succeed src now => exact h.succeed

variable {Q : α → World D × FailureLimiter → Prop}

theorem burst_op {o : LimiterOp} {k : LimiterAns o → Call D α}
    (h : ∀ (t u : World D × FailureLimiter) e, t.2.Counted → WithinBurst i j (.inr o) e t →
      Clean u → Spared r i j (k (limiterAct r o t.2).1) Q u) :
    Spared r i j (.op (.inr o) k) Q s := by
  intro t _ ht e he a u hu
  obtain ⟨hact, hsame⟩ := sum_inr hu
  have hanswer : (limiterAct r o t.2).1 = a := congrArg Prod.fst (Option.some.inj hact)
  have hnext : (limiterAct r o t.2).2 = u.2 := congrArg Prod.snd (Option.some.inj hact)
  subst hanswer
  have hclean : Clean u := ⟨hsame ▸ ht.1, hnext ▸ limiterAct_counted r o ht.2⟩
  exact ⟨hclean, trivial, h t u e ht.2 he hclean⟩

/-- The decision is no refusal of the limiter, if the call is `i`. -/
def Passed (i j : ι) (x : Except VerifyErr Verified) : Prop := j = i → x ≠ .error .rateLimited

theorem passed_done {x : Except VerifyErr Verified} (h : x ≠ .error .rateLimited) :
    Spared r i j (.done x) (fun x _ => Passed i j x) s :=
  fun _ _ _ _ => h

theorem burst_inl {k : Ans o → Call D α}
    (ho : keepsClean o) (h : ∀ a u, Clean u → Spared r i j (k a) Q u) :
    Spared r i j (.op (.inl o) k) Q s := by
  intro t _ ht e _ a u hu
  obtain ⟨hact, hsame⟩ := sum_inl hu
  have hclean : Clean u := ⟨ht.1.step ho hact, hsame ▸ ht.2⟩
  exact ⟨hclean, trivial, h a u hclean⟩

theorem verifyUncached_passed (sum : D) (src kid : String) (secret : Bytes)
    (want : KeyClass) (epoch? : Option Nat) (now : Int) :
    Spared r i j (verifyUncached V sum src kid secret want epoch? now)
      (fun x _ => Passed i j x) s := by
  refine burst_op fun t u e ht hburst hu => ?_
  cases hallowed : (limiterAct r (.allow src now) t.2).1 with
  | false =>
    -- only another call than `i` can be refused here
    intro _ _ _ hj
    obtain ⟨hfew, hnow⟩ := hburst hj
    have hpassed : (limiterAct r (.allow src now) t.2).1 = true := ht.allowed hfew hnow
    rw [hallowed] at hpassed
    cases hpassed
  | true =>
    cases epoch? with
    | none => exact burst_op fun _ _ _ _ _ _ => passed_done (by simp)
    | some epoch =>
      simp only [Prog.bind, Bool.not_true, Bool.false_eq_true, if_false]
      refine (clean_inl (verifyAgainstStore_clean V kid secret want now)).seq hu
        fun x u' hu' hx => ?_
      cases x with
      | error e =>
        obtain ⟨reason, err⟩ := e
        have herr := hx reason err rfl
        refine burst_inl herr fun _ _ _ => burst_op fun _ _ _ _ _ _ => passed_done ?_
        exact fun h => herr (Except.error.inj h)
      | ok found =>
        exact burst_inl trivial fun _ _ _ => burst_inl trivial fun _ _ _ =>
          burst_op fun _ _ _ _ _ _ => passed_done (by simp)

/-- No call to the verifier returns a refusal of the limiter while its bucket is within the
burst. -/
theorem verify_passed (want : KeyClass) : Spared r i j (verify V ip raw want)
      (fun x _ => Passed i j x) s := by
  refine burst_inl trivial fun now u hu => ?_
  change Holds _ _ j (verifyAt V ip raw want now) _ u
  unfold verifyAt
  cases V.parse raw with
  | none => exact passed_done (by simp)
  | some parsed =>
    obtain ⟨cls, kid, secret⟩ := parsed
    dsimp only
    split
    · exact passed_done (by simp)
    refine (clean_inl syncEpoch_clean).seq hu fun epoch? u hu _ => ?_
    cases epoch? with
    | none => exact verifyUncached_passed V _ _ kid secret want none now
    | some epoch =>
      refine (clean_inl (fromCache_clean V _ epoch now)).seq hu fun x u hu hx => ?_
      cases x with
      | none => exact verifyUncached_passed V _ _ kid secret want (some epoch) now
      | some decision => exact passed_done fun h => hx (congrArg some h)

theorem program_passed (q : Request) (hs : Clean s) : Spared r i j (program V q)
      (fun out _ => j = i → out ≠ .verified (.error .rateLimited)) s := by
  cases q with
  | verify ip raw want =>
    refine (verify_passed V ip raw want).seq hs fun x u hu hx => ?_
    exact fun _ _ _ hj h => hx hj (Outcome.verified.inj h)
  | mutate e => exact burst_inl trivial fun _ _ _ _ _ _ _ h => by cases h

omit [DecidableEq D] in
theorem clean_start (start : State) (time : Int) :
    Clean (initial V start time, newFailureLimiter) :=
  ⟨fun _ h => absurd h List.not_mem_nil, counted_new⟩

/-- Whatever runs beside it, and whatever the clock shows: a call whose bucket has had at most ten
failures since its last success, when the call asks the limiter, is not refused by the limiter. -/
theorem a_credential_is_not_throttled_within_the_burst [DecidableEq ι] (r : Rounding)
    (V : Verifier D) (start : State) (time : Int) (calls : ι → Request) (i : ι)
    (ls : List (ι × Env))
    (c : Conf (Either (@Ans D) LimiterAns) ι (World D × FailureLimiter) Outcome)
    (hburst : Meets (limitedMachine r) (WithinBurst i) (system V start time calls) ls)
    (hrun : run (limitedMachine r) (system V start time calls) ls = some c) :
    c.thread i ≠ .done (.verified (.error .rateLimited)) := by
  intro hdone
  have hclean : (burstPact i).inv (system V start time calls).shared := clean_start V start time
  have hpassed : ∀ j, Spared r i j
      ((system V start time calls).thread j)
      (fun out _ => j = i → out ≠ .verified (.error .rateLimited))
      (system V start time calls).shared :=
    fun j => program_passed V (calls j) hclean
  exact done_of_run hclean hpassed hburst hrun hdone rfl rfl

/-! ## Guesses -/

/-- Every token names the key "live"; one has its secret. -/
def guessVerifier : Verifier String :=
  { plainVerifier with
    parse := fun raw => some (.agent, "live", if raw = "genuine" then [1] else [2]) }

def exactRounding : Rounding := { round := id, mono := fun _ _ h => h, exact := fun _ _ => rfl }

/-- So many calls with wrong secrets, and one with the token of the key. -/
def guesses (n : Nat) (i : Fin (n + 1)) : Request :=
  .verify "10.0.0.1"
    (if i.val < n then String.ofList (List.replicate (i.val + 1) 'x') else "genuine") .agent

/-- The wrong ones one after the other. The first of them purges the caches. -/
def guessRun (n : Nat) : List (Fin (n + 1) × Env) :=
  (numbered (List.replicate 2 0 ++
    (List.range n).flatMap fun k => List.replicate 9 k)).map fun i => (i, ⟨100, true, true⟩)

def genuineRun (n steps : Nat) : List (Fin (n + 1) × Env) :=
  List.replicate steps (Fin.last n, ⟨100, true, true⟩)

omit [DecidableEq D] in
instance [DecidableEq ι] (i j : ι) (o : Op D ⊕ LimiterOp) (e : Env)
    (s : World D × FailureLimiter) : Decidable (WithinBurst i j o e s) :=
  match o with
  | .inr (.allow _ _) => inferInstanceAs (Decidable (_ → _))
  | .inr (.fail _ _) | .inr (.succeed _ _) | .inl _ => isTrue trivial

theorem ten_guesses_do_not_throttle_the_owner :
    ∃ c, run (limitedMachine exactRounding) (system guessVerifier (twoKeys 20) 0 (guesses 10))
        (guessRun 10 ++ genuineRun 10 10) = some c ∧
      (c.thread 10).result.isSome = true ∧
      c.thread 10 ≠ .done (.verified (.error .rateLimited)) := by
  have hend : (run (limitedMachine exactRounding)
      (system guessVerifier (twoKeys 20) 0 (guesses 10)) (guessRun 10 ++ genuineRun 10 10)).map
        (fun c => (c.thread 10).result.isSome) = some true := by decide +kernel
  obtain ⟨c, hrun, hc⟩ := map_eq_some_iff.mp hend
  have hburst : Meets (limitedMachine exactRounding) (WithinBurst 10)
      (system guessVerifier (twoKeys 20) 0 (guesses 10)) (guessRun 10 ++ genuineRun 10 10) :=
    (check_iff _ _ _).mp (by decide +kernel)
  exact ⟨c, hrun, hc, a_credential_is_not_throttled_within_the_burst _ _ _ _ _ _ _ c hburst hrun⟩

/-- The key is in the document with the secret of the token, of the class that is asked for,
not revoked and not expired. -/
def genuineIn (s : State) : Bool :=
  match store.getKey "live" s with
  | .ok key => decide (key.secretHMAC = guessVerifier.hmac [1] ∧ key.cls = .agent) &&
      !key.revoked && !key.expired 100
  | .error _ => false

def throttled : Outcome → Bool
  | .verified (.error .rateLimited) => true
  | _ => false

theorem throttled_iff (out : Outcome) :
    throttled out = true ↔ out = .verified (.error .rateLimited) := by
  constructor
  · intro h
    unfold throttled at h
    split at h
    · rfl
    · cases h
  · rintro rfl
    rfl

/-- Eleven wrong secrets for its KID from one address, and the genuine token of a key that is
live all the time is refused as rate limited. -/
theorem eleven_guesses_throttle_the_owner : ∃ c₁ c₂, run (limitedMachine exactRounding)
        (system guessVerifier (twoKeys 20) 0 (guesses 11)) (guessRun 11) = some c₁ ∧
      run (limitedMachine exactRounding) c₁ (genuineRun 11 6) = some c₂ ∧
      guessVerifier.parse "genuine" = some (.agent, "live", [1]) ∧
      (history (limitedMachine exactRounding) 11 c₁ (genuineRun 11 6)).all
        (fun ev => genuineIn ev.before.1.doc && genuineIn ev.after.1.doc) = true ∧
      c₂.thread 11 = .done (.verified (.error .rateLimited)) := by
  have hend : ((run (limitedMachine exactRounding)
      (system guessVerifier (twoKeys 20) 0 (guesses 11)) (guessRun 11)).bind fun c₁ =>
        (run (limitedMachine exactRounding) c₁ (genuineRun 11 6)).map fun c₂ =>
          ((history (limitedMachine exactRounding) 11 c₁ (genuineRun 11 6)).all
            (fun ev => genuineIn ev.before.1.doc && genuineIn ev.after.1.doc),
              (c₂.thread 11).result.map throttled)) = some (true, some true) := by decide +kernel
  obtain ⟨c₁, hrun₁, hrest⟩ := bind_eq_some_iff.mp hend
  obtain ⟨c₂, hrun₂, hc₂⟩ := map_eq_some_iff.mp hrest
  obtain ⟨out, hout, hthrottled⟩ := map_eq_some_iff.mp (congrArg Prod.snd hc₂)
  refine ⟨c₁, c₂, hrun₁, hrun₂, rfl, congrArg Prod.fst hc₂, Prog.result_eq_some.mp ?_⟩
  rw [hout, (throttled_iff out).mp hthrottled]

end limited

end prom_fleet.authn
