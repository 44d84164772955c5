-- CA rotation over whole runs. The phase in the Secret agrees with its material and no write
-- narrows the trust in a way that a signer would miss. A root is withdrawn after the horizon
-- of its promotion, unless a grace near the largest duration makes that wrap around.
import PromFleet.CARotationLaws

namespace prom_fleet.rotation

open interleave gotime List kube

variable {Cert Key ι : Type} {K : Toolkit Cert Key} {T : Terms}

/-! ## Runs from a steady Secret -/

/-- A Secret with one root, which signs, and without the material of a rotation. -/
structure SteadySecret (K : Toolkit Cert Key) (sec : Secret Bytes) : Prop where
  version : 0 < sec.resourceVersion
  known : (readCARotation K sec).unknown = false
  phase : (readCARotation K sec).phase = .steady
  signer : HoldsPair K (field secretKeyCACert sec) (field secretKeyCAKey sec)
  nextCert : field secretKeyCANextCert sec = []
  nextKey : field secretKeyCANextKey sec = []
  prevCert : field secretKeyCAPrevCert sec = []

theorem SteadySecret.agrees {sec : Secret Bytes} (h : SteadySecret K sec) :
    Agrees K T (readCARotation K sec) := by
  refine ⟨h.known, h.signer, fun _ => ⟨h.nextCert, h.nextKey, h.prevCert⟩, ?_, ?_⟩
  · intro hne
    rw [h.phase] at hne
    cases hne
  · intro hne
    rw [h.phase] at hne
    cases hne

/-- The private key in one text is not that of the certificate in the other. -/
def freshKey (K : Toolkit Cert Key) (certPEM keyPEM : Bytes) : Bool :=
  match parseCertificatePEM K certPEM, K.privateKey keyPEM with
  | some c, some k => !K.keyMatches c k
  | _, _ => true

/-- The random generator gives no key that a signer in the Secret has already. -/
def freshKeys (K : Toolkit Cert Key) : Terms :=
  { minted := fun certPEM keyPEM => freshKey K certPEM keyPEM = true
    promoted := fun _ _ => True }

/-- The phase agrees with the material, in the words of the phases. -/
structure PhaseAgrees (K : Toolkit Cert Key) (base : Bytes) (st : CaRotationState) : Prop where
  publishing : st.phase = .publishing → HoldsPair K st.nextCertPEM st.nextKeyPEM ∧
    ∀ c, parseCertificatePEM K st.nextCertPEM = some c → Trusts K base st c
  signing : st.phase = .signing → (∃ c, parseCertificatePEM K st.prevCertPEM = some c) ∧
    st.nextKeyPEM = [] ∧ freshKey K st.prevCertPEM st.keyPEM = true
  steady : st.phase = .steady → st.nextCertPEM = [] ∧ st.prevCertPEM = []

variable {st : CaRotationState}

theorem Agrees.phaseAgrees (hK : K.Lawful) (h : Agrees K (freshKeys K) st) (base : Bytes) :
    PhaseAgrees K base st := by
  refine ⟨fun hphase => ?_, fun hphase => ?_, fun hphase => ?_⟩
  · obtain ⟨hpair, _⟩ := h.publishing hphase
    refine ⟨hpair, fun c hc => .inr ?_⟩
    unfold CaRotationState.additionalRoots
    rw [h.known, hphase]
    exact mem_rootsIn_join hK (.inr ((mem_rootsIn_of_parse hc).mpr rfl))
  · obtain ⟨_, hnextKey, hprev, hfresh⟩ := h.signing hphase
    exact ⟨hprev, hnextKey, hfresh⟩
  · obtain ⟨hnext, _, hprev⟩ := h.steady hphase
    exact ⟨hnext, hprev⟩

theorem trusts_of_unknown (hK : K.Lawful) {base : Bytes} (h : st.unknown = true) {c : Cert}
    (hc : parseCertificatePEM K st.certPEM = some c ∨
      c ∈ rootsIn K st.nextCertPEM ∨ c ∈ rootsIn K st.prevCertPEM) : Trusts K base st c := by
  rcases hc with hc | hc | hc
  · exact .inl hc
  · right
    unfold CaRotationState.additionalRoots
    rw [h]
    exact mem_rootsIn_join hK (.inl (mem_rootsIn_join hK (.inr hc)))
  · right
    unfold CaRotationState.additionalRoots
    rw [h]
    exact mem_rootsIn_join hK (.inr hc)

/-! ## The horizon of a promotion -/

/-- The hold of a promotion is a duration, and its horizon is a date that RFC 3339 can
write. -/
def horizonFits (cfg : Config) (P : Int) : Prop :=
  cfg.spokeCertTTL + cfg.renewGrace + 2 * cfg.pollInterval ≤ maxDuration ∧
    0 ≤ P + (cfg.spokeCertTTL + cfg.renewGrace + 2 * cfg.pollInterval) ∧
    P + (cfg.spokeCertTTL + cfg.renewGrace + 2 * cfg.pollInterval) < year10000

def fittingHorizons : Terms := { minted := fun _ _ => True, promoted := horizonFits }

variable {P : Int} {cfg : Config}

theorem retirementHold_of_fits (h : horizonFits cfg P) :
    cfg.retirementHold = cfg.spokeCertTTL + cfg.renewGrace + 2 * cfg.pollInterval := by
  apply wrap64_of_mem
  · have := cfg.ttl_pos
    have := cfg.grace_nonneg
    have := cfg.poll_pos
    unfold minDuration
    omega
  · exact h.1

/-- The horizon that a promotion stores is less than a second before the one that it has
planned. -/
theorem lt_horizon_of_fits (hK : K.Lawful) (h : horizonFits cfg P) :
    P + cfg.spokeCertTTL + cfg.renewGrace + 2 * cfg.pollInterval - second <
      (K.parseTime (K.formatTime (P + cfg.retirementHold))).getD 0 := by
  rw [retirementHold_of_fits h, hK.stamp _ h.2.1 h.2.2, Option.getD_some]
  have := lt_truncSecond_add (P + (cfg.spokeCertTTL + cfg.renewGrace + 2 * cfg.pollInterval))
  omega

/-! ## A concrete fleet -/

/-- Packages for concrete runs: each byte from 100 on is a certificate, a byte below it
the private key, and a time is written as five digits of base 256. -/
def smallKit : Toolkit Nat Nat where
  formatTime t :=
    let n := (t / second).toNat
    [.ofNat n, .ofNat (n / 256), .ofNat (n / 65536), .ofNat (n / 16777216), .ofNat (n / 4294967296)]
  parseTime
    | [a, b, c, d, e] =>
      some ((a.toNat + 256 * b.toNat + 65536 * c.toNat + 16777216 * d.toNat +
        4294967296 * e.toNat : Nat) * second)
    | _ => none
  blocks pem := (pem.filter fun b => 100 ≤ b).map fun b => some b.toNat
  signsCerts _ := true
  privateKey
    | [b] => some b.toNat
    | _ => none
  keyMatches c k := c = k + 100
  notBefore _ := 0
  notAfter _ := year10000
  newRootPEM seed := ([.ofNat (100 + seed % 100)], [.ofNat (seed % 100)])

theorem filter_trimNewlines (a : Bytes) :
    (trimNewlines a).filter (fun b => 100 ≤ b) = a.filter fun b => 100 ≤ b := by
  unfold trimNewlines
  induction a using List.reverseRecOn with
  | nil => rfl
  | append_singleton a x ih =>
    by_cases hx : x = 10
    · subst hx
      rw [rdropWhile_concat_pos _ _ _ (by decide), ih, filter_append]
      simp
    · rw [rdropWhile_concat_neg _ _ _ (by simpa using hx)]

theorem smallKit_blocks_join (a b : Bytes) :
    smallKit.blocks (trimNewlines a ++ [10] ++ b) = smallKit.blocks a ++ smallKit.blocks b := by
  simp only [smallKit, filter_append, filter_trimNewlines, map_append]
  simp

theorem smallKit_lawful : smallKit.Lawful where
  stamp t hlow hhigh := by
    have hn : (t / second).toNat < 1099511627776 := by
      unfold year10000 second at *
      omega
    simp only [smallKit, UInt8.toNat_ofNat', Option.some.injEq]
    have hpos : 0 ≤ t / second := by
      unfold second
      omega
    generalize hdiv : (t / second).toNat = n at *
    have hsum : n % 2 ^ 8 + 256 * (n / 256 % 2 ^ 8) + 65536 * (n / 65536 % 2 ^ 8) +
        16777216 * (n / 16777216 % 2 ^ 8) + 4294967296 * (n / 4294967296 % 2 ^ 8) = n := by
      omega
    unfold truncSecond second at *
    omega
  blank pem h := by
    simp only [smallKit, map_eq_nil_iff, filter_eq_nil_iff]
    intro b hb
    have hspace := all_eq_true.mp h b hb
    simp only [isSpace, Bool.or_eq_true, Bool.and_eq_true, decide_eq_true_eq] at hspace
    simp only [decide_eq_true_eq, UInt8.not_le]
    rcases hspace with rfl | ⟨_, hle⟩
    · decide
    · exact UInt8.lt_of_le_of_lt hle (by decide)
  join a b x hx := by
    rw [smallKit_blocks_join]
    exact hx
  minted seed := by
    have hcert : (UInt8.ofNat (100 + seed % 100)).toNat = 100 + seed % 100 := by
      rw [UInt8.toNat_ofNat']
      omega
    have hkey : (UInt8.ofNat (seed % 100)).toNat = seed % 100 := by
      rw [UInt8.toNat_ofNat']
      omega
    have hblock : (100 : UInt8) ≤ .ofNat (100 + seed % 100) := by
      rw [UInt8.le_iff_toNat_le, hcert]
      exact Nat.le_add_right _ _
    have hblocks : smallKit.blocks (smallKit.newRootPEM seed).1 = [some (100 + seed % 100)] := by
      simp only [smallKit]
      rw [filter_cons_of_pos (by simpa only [decide_eq_true_eq] using hblock),
        filter_nil, map_cons, hcert, map_nil]
    refine ⟨100 + seed % 100, seed % 100, ?_, congrArg some hkey, rfl, ?_⟩
    · unfold parseCertificatePEM
      rw [hblocks]
    · simp [smallKit, Nat.add_comm]
  keyless := rfl

instance [DecidableEq Cert] (base : Bytes) (st : CaRotationState) (c : Cert) :
    Decidable (Trusts K base st c) :=
  inferInstanceAs (Decidable (_ ∨ _))

instance [∀ a b, Decidable (T.minted a b)] [∀ cfg P, Decidable (T.promoted cfg P)] (i : ι)
    (o : RotOp Cert) (e : RotEnv) (s : Int × Server) : Decidable (grants K T i o e s) :=
  match o with
  | .newRootPEM => inferInstanceAs (Decidable (∀ seed ∈ e.seed, ∀ v ∈ s.2, T.minted _ _))
  | .updateSecret _ (.rotator cfg (some P)) => inferInstanceAs (Decidable (T.promoted cfg P))
  | .updateSecret _ (.rotator _ none) => inferInstanceAs (Decidable True)
  | .updateSecret _ .other => inferInstanceAs (Decidable True)
  | .getSecret => inferInstanceAs (Decidable True)
  | .clock => inferInstanceAs (Decidable True)
  | .holdoutsOn _ => inferInstanceAs (Decidable True)
  | .edit _ => inferInstanceAs (Decidable True)

instance (a b : Bytes) : Decidable ((freshKeys K).minted a b) :=
  inferInstanceAs (Decidable (_ = true))

instance (cfg : Config) (P : Int) : Decidable ((freshKeys K).promoted cfg P) :=
  inferInstanceAs (Decidable True)

instance (a b : Bytes) : Decidable (fittingHorizons.minted a b) :=
  inferInstanceAs (Decidable True)

instance (cfg : Config) (P : Int) : Decidable (fittingHorizons.promoted cfg P) :=
  inferInstanceAs (Decidable (_ ∧ _ ∧ _))

/-- The defaults of the hub, with this grace. -/
def settings (grace : Int) (hlow : 0 ≤ grace) (hhigh : grace ≤ maxDuration) : Config where
  spokeCertTTL := 1209600 * second
  renewGrace := grace
  pollInterval := 300 * second
  rotateAtRemaining total := total / 5
  ttl_pos := by decide
  ttl_le := by decide
  grace_nonneg := hlow
  grace_le := hhigh
  poll_pos := by decide
  poll_le := by decide

def defaults : Config := settings (2592000 * second) (by decide) (by decide)

/-- A replica that runs since `started` and has not adopted anything yet. -/
def replica (cfg : Config) (started : Int) : CaRotator Nat Nat :=
  { cfg := cfg, base := [], authority := ⟨100, 0, [100]⟩, startedAt := started
    appliedCert := [], appliedRoots := [] }

def ordered : Secret Bytes :=
  { resourceVersion := 1
    data := ((∅ : StrMap Bytes).insert secretKeyCACert [100]).insert secretKeyCAKey [0]
    labels := ∅
    annotations := (∅ : StrMap String).insert annotationRotateNow "compromise" }

/-- Noon of a day in November 2025. -/
def noon : Int := 63898200000 * second

/-- Steps without faults, so many seconds after noon. -/
def after (n : Int) (is : List (Fin 3)) : List (Fin 3 × RotEnv) :=
  is.map fun i =>
    (i, { now := noon + n * second, fault := .delivered, gap := 0, seed := some 1, holdouts := 0 })

theorem ordered_steady : SteadySecret smallKit ordered :=
  ⟨by decide, by decide, by decide, ⟨100, 0, by decide, by decide, by decide, by decide⟩, by decide,
    by decide, by decide⟩

/-- A poll that publishes, one that promotes after two weeks, and one that retires. -/
def fullRotation : List (Fin 3 × RotEnv) :=
  after 0 (numbered [0, 0, 0, 0]) ++ after 1209600 (numbered [1, 1, 1, 1]) ++
    after 5011800 (numbered [2, 2, 2, 2, 2])

def threePolls (cfg : Config) : Fin 3 → Request Nat Nat := fun _ => .poll (replica cfg noon)

/-! ## Trust along a run -/

section Runs

variable [DecidableEq ι]

/-- Every committed write of a run from a steady Secret signs with a root that was trusted before, a
promotion leaves the trusted roots as they are, and the phase agrees with the material. No write is
made over an unknown phase, which trusts every stored root. -/
theorem rotation_steps_keep_trust (K : Toolkit Cert Key) (hK : K.Lawful) :
    (∀ (t : Int) (sec : Secret Bytes) (calls : ι → Request Cert Key) (ls : List (ι × RotEnv))
        (c : Conf (@RotAns Cert) ι (Int × Server) Unit) (base : Bytes),
      SteadySecret K sec →
      Meets (rotMachine K) (grants K (freshKeys K)) (system K t sec calls) ls →
      run (rotMachine K) (system K t sec calls) ls = some c →
      (∀ w v older, w :: v :: older <:+ c.shared.2 →
        (∀ root, parseCertificatePEM K (field secretKeyCACert w.secret) = some root →
          Trusts K base (readCARotation K v.secret) root) ∧
        (Whole K base → (readCARotation K v.secret).phase = .publishing →
          (readCARotation K w.secret).phase = .signing →
          ∀ root, Trusts K base (readCARotation K w.secret) root ↔
            Trusts K base (readCARotation K v.secret) root)) ∧
      ∀ v ∈ c.shared.2, PhaseAgrees K base (readCARotation K v.secret)) ∧
    (∀ (t : Int) (sec : Secret Bytes) (calls : ι → Request Cert Key) (ls : List (ι × RotEnv))
        (c : Conf (@RotAns Cert) ι (Int × Server) Unit),
      0 < sec.resourceVersion → run (rotMachine K) (system K t sec calls) ls = some c →
      ∀ w v older cfg reading, w :: v :: older <:+ c.shared.2 →
        w.note.writer = .rotator cfg reading → (readCARotation K v.secret).unknown = false) ∧
    ∀ (base : Bytes) (st : CaRotationState) (root : Cert), st.unknown = true →
      (parseCertificatePEM K st.certPEM = some root ∨ root ∈ rootsIn K st.nextCertPEM ∨
        root ∈ rootsIn K st.prevCertPEM) → Trusts K base st root := by
  refine ⟨?_, ?_, fun base st root hunknown hc => trusts_of_unknown hK hunknown hc⟩
  · intro t sec calls ls c base hsteady hmeets hrun
    have hhist := (run_good hsteady.version hmeets hrun).history
    have hstart : Agrees K (freshKeys K) (readCARotation K (firstVersion t sec).secret) :=
      hsteady.agrees
    refine ⟨fun w v older hs => ?_, fun v hv => ?_⟩
    · have hagrees := hhist.agrees hK hstart ((suffix_cons _ _).trans hs)
      have hturn := (hhist.link hs).turn hK hagrees
      refine ⟨fun root hroot => hturn.signer_trusted hK hagrees hroot, ?_⟩
      intro hbase hbefore hafter root
      exact hturn.trusts_promote hK hbase hagrees hbefore hafter root
    · obtain ⟨newer, older, hs⟩ := append_of_mem hv
      have hsuffix : v :: older <:+ c.shared.2 := by
        rw [hs]
        exact suffix_append _ _
      exact (hhist.agrees hK hstart hsuffix).phaseAgrees hK base
  · intro t sec calls ls c hrv hrun w v older cfg reading hs hwriter
    have hmeets : Meets (rotMachine K) (grants K ⟨fun _ _ => True, fun _ _ => True⟩)
        (system K t sec calls) ls := by
      refine .mono (fun i o e s _ => ?_) (meets_true _ ls)
      unfold grants
      split <;> simp
    cases (run_good hrv hmeets hrun).history.link hs with
    | edit hother _ =>
      rw [hother] at hwriter
      cases hwriter
    | rotate hknown => exact hknown

/-- A whole rotation: the promotion leaves the two trusted roots, and in the signing
phase the Secret has lost the key of the outgoing root. -/
theorem rotation_steps_keep_trust_in_a_full_rotation : ∃ c w p v older, run (rotMachine smallKit)
        (system smallKit noon ordered (threePolls defaults)) fullRotation = some c ∧
      c.shared.2 = w :: p :: v :: older ∧
      (readCARotation smallKit v.secret).phase = .publishing ∧
      (readCARotation smallKit p.secret).phase = .signing ∧
      (∀ root, Trusts smallKit [] (readCARotation smallKit p.secret) root ↔
        Trusts smallKit [] (readCARotation smallKit v.secret) root) ∧
      PhaseAgrees smallKit [] (readCARotation smallKit p.secret) := by
  have hlaw := (rotation_steps_keep_trust smallKit smallKit_lawful).1 noon ordered
    (threePolls defaults) fullRotation
  refine ⟨_, _, _, _, _, rfl, rfl, rfl, rfl, ?_, ?_⟩
  · refine ((hlaw _ [] ordered_steady (by decide) rfl).1 _ _ _ (suffix_cons _ _)).2 ?_ rfl rfl
    intro hblank
    cases hblank
  · exact (hlaw _ [] ordered_steady (by decide) rfl).2 _ (mem_cons_of_mem _ mem_cons_self)

/-- The write that takes a trusted root away ends the rotation that has promoted its
successor, and not before the horizon of that promotion. -/
theorem removal_of_history (hK : K.Lawful) {v₀ w v : Version Bytes Note} {s older : Server}
    (h₀ : Agrees K fittingHorizons (readCARotation K v₀.secret))
    (hsteady : (readCARotation K v₀.secret).phase = .steady)
    (h : History K fittingHorizons v₀ s) (hs : w :: v :: older <:+ s) {base : Bytes}
    (hbase : Whole K base) {root : Cert} (htrust : Trusts K base (readCARotation K v.secret) root)
    (hlost : ¬ Trusts K base (readCARotation K w.secret) root) :
    (readCARotation K v.secret).phase = .signing ∧
      (readCARotation K w.secret).phase = .steady ∧ (∃ cfg, w.note.writer = .rotator cfg none) ∧
      ∃ p v' older' cfg P, p :: v' :: older' <:+ v :: older ∧ Promotion K p v' cfg P root ∧
        P + cfg.spokeCertTTL + cfg.renewGrace + 2 * cfg.pollInterval - second <
          w.note.committed := by
  have hv : v :: older <:+ s := (suffix_cons _ _).trans hs
  have hagrees := h.agrees hK h₀ hv
  have hturn := (h.link hs).turn hK hagrees
  rcases hturn.trusts_or_retires hK hbase hagrees htrust with hkept | hretired
  · exact absurd hkept hlost
  obtain ⟨hbefore, hafter, hprev, hwriter, hgate⟩ := hretired
  obtain ⟨p, v', older', cfg, P, hp, hprom, hfits, hhorizon⟩ :=
    (h.suffix hv).promotion hK h₀ hsteady hbefore hprev
  refine ⟨hbefore, hafter, hwriter, p, v', older', cfg, P, hp, hprom, ?_⟩
  rw [hhorizon] at hgate
  exact lt_of_lt_of_le (lt_horizon_of_fits hK hfits) hgate

/-- In every run from a steady Secret whose promotions have fitting horizons, a trusted root goes
only with the write that ends a rotation, and not before the horizon of its promotion. So it is
trusted to the end of the grace of what it signed up to a poll after that. -/
theorem no_root_goes_too_early_if_horizons_fit (K : Toolkit Cert Key) (hK : K.Lawful) (t : Int)
    (sec : Secret Bytes) (hsteady : SteadySecret K sec) (calls : ι → Request Cert Key)
    (ls : List (ι × RotEnv)) (c : Conf (@RotAns Cert) ι (Int × Server) Unit)
    (hmeets : Meets (rotMachine K) (grants K fittingHorizons) (system K t sec calls) ls)
    (hrun : run (rotMachine K) (system K t sec calls) ls = some c) (base : Bytes)
    (hbase : Whole K base) (root : Cert) :
    (∀ w v older, w :: v :: older <:+ c.shared.2 → Trusts K base (readCARotation K v.secret) root →
      ¬ Trusts K base (readCARotation K w.secret) root →
      (readCARotation K v.secret).phase = .signing ∧
        (readCARotation K w.secret).phase = .steady ∧ (∃ cfg, w.note.writer = .rotator cfg none) ∧
        ∃ p v' older' cfg P, p :: v' :: older' <:+ v :: older ∧ Promotion K p v' cfg P root ∧
          P + cfg.spokeCertTTL + cfg.renewGrace + 2 * cfg.pollInterval - second ≤
            w.note.committed) ∧
    ∀ signer older signed lifetime, signer :: older <:+ c.shared.2 →
      parseCertificatePEM K (field secretKeyCACert signer.secret) = some root →
      (∀ p v' older' cfg P, p :: v' :: older' <:+ c.shared.2 → Promotion K p v' cfg P root →
        second ≤ cfg.pollInterval ∧ signed ≤ P + cfg.pollInterval ∧
          lifetime ≤ cfg.spokeCertTTL ∧ c.shared.1 ≤ signed + lifetime + cfg.renewGrace) →
      ∀ cur, current c.shared.2 = some cur → Trusts K base (readCARotation K cur) root := by
  have hgood := run_good hsteady.version hmeets hrun
  have hstart : Agrees K fittingHorizons (readCARotation K (firstVersion t sec).secret) :=
    hsteady.agrees
  have hremoval := fun w v (older : Server) (hs : w :: v :: older <:+ c.shared.2)
      (htrust : Trusts K base (readCARotation K v.secret) root)
      (hlost : ¬ Trusts K base (readCARotation K w.secret) root) =>
    removal_of_history hK hstart hsteady.phase hgood.history hs hbase htrust hlost
  constructor
  · intro w v older hs htrust hlost
    obtain ⟨hbefore, hafter, hwriter, p, v', older', cfg, P, hp, hprom, hlt⟩ :=
      hremoval w v older hs htrust hlost
    exact ⟨hbefore, hafter, hwriter, p, v', older', cfg, P, hp, hprom, le_of_lt hlt⟩
  · intro signer older signed lifetime hsigner hroot hcert cur hcur
    by_contra hlost
    obtain ⟨head, rest, hserver, hhead⟩ := kube.current_eq_some hcur
    subst hhead
    have htrust : Trusts K base (readCARotation K signer.secret) root := .inl hroot
    rw [hserver] at hsigner
    obtain ⟨w, v, older', hs, hbefore, hafter⟩ := exists_removal hsigner htrust hlost
    rw [← hserver] at hs
    obtain ⟨_, _, _, p, v', old, cfg, P, hp, hprom, hlt⟩ := hremoval w v older' hs hbefore hafter
    have hp' : p :: v' :: old <:+ c.shared.2 := hp.trans ((suffix_cons _ _).trans hs)
    obtain ⟨hpoll, hsigned, hlife, hclock⟩ := hcert p v' old cfg P hp' hprom
    have hcommitted := hgood.committed w (hs.subset mem_cons_self)
    -- the end of the grace is a poll before the horizon at the latest
    omega

end Runs

theorem no_root_goes_too_early_in_a_full_rotation : ∃ c w v older, run (rotMachine smallKit)
        (system smallKit noon ordered (threePolls defaults)) fullRotation = some c ∧
      c.shared.2 = w :: v :: older ∧ w.note.committed = noon + 5011800 * second ∧
      ∃ p v' older' cfg P, p :: v' :: older' <:+ v :: older ∧ Promotion smallKit p v' cfg P 100 ∧
        P + cfg.spokeCertTTL + cfg.renewGrace + 2 * cfg.pollInterval - second ≤
          w.note.committed := by
  have hwhole : Whole smallKit [] := by
    intro hblank
    cases hblank
  have hlaw := fun c hrun => (no_root_goes_too_early_if_horizons_fit smallKit smallKit_lawful noon
    ordered ordered_steady (threePolls defaults) fullRotation c (by decide) hrun [] hwhole 100).1
  refine ⟨_, _, _, _, rfl, rfl, rfl, ?_⟩
  exact (hlaw _ rfl _ _ _ (suffix_refl _) (by decide) (by decide)).2.2.2

/-- A grace of the largest duration. -/
def endless : Config := settings maxDuration (by decide) (by decide)

/-- The third poll comes ten minutes after the promotion. -/
def hastyRotation : List (Fin 3 × RotEnv) :=
  after 0 (numbered [0, 0, 0, 0]) ++ after 1209600 (numbered [1, 1, 1, 1]) ++
    after 1210200 (numbered [2, 2, 2, 2, 2])

/-- The hold wraps around, and the outgoing root is withdrawn ten minutes after the
promotion. -/
theorem an_endless_grace_withdraws_a_root_at_once : ∃ c w p v older, run (rotMachine smallKit)
        (system smallKit noon ordered (threePolls endless)) hastyRotation = some c ∧
      c.shared.2 = w :: p :: v :: older ∧
      Promotion smallKit p v endless (noon + 1209600 * second) 100 ∧
      Trusts smallKit [] (readCARotation smallKit p.secret) 100 ∧
      ¬ Trusts smallKit [] (readCARotation smallKit w.secret) 100 ∧
      w.note.committed < noon + 1209600 * second + endless.spokeCertTTL + endless.renewGrace +
        2 * endless.pollInterval - second := by
  exact ⟨_, _, _, _, _, rfl, rfl, ⟨rfl, rfl, rfl, rfl⟩, by decide, by decide, by decide⟩

end prom_fleet.rotation
