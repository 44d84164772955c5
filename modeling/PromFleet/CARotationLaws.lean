-- The laws of one write of a rotation: which turns a rotation takes, that its phase
-- keeps agreeing with the material in the Secret, and what a turn does to the trusted
-- roots. Only the turn that ends a rotation takes a root away.
import PromFleet.CARotationHistory
import PromFleet.MapRange

namespace prom_fleet.rotation

open interleave gotime List Finmap kube

variable {Cert Key ι : Type}

/-! ## The fields after a write -/

theorem lookup_foldl_erase (del : List String) (d : StrMap Bytes) (k : String) :
    (del.foldl (fun d k => d.erase k) d).lookup k = if k ∈ del then none else d.lookup k := by
  induction del generalizing d with
  | nil => simp
  | cons x del ih =>
    rw [foldl_cons, ih]
    by_cases hx : k = x
    · subst hx
      simp [lookup_erase]
    · simp [hx, lookup_erase_ne hx]

/-- What the write of a plan leaves in a field. -/
def CaRotationPlan.fieldAfter (K : Toolkit Cert Key) (p : CaRotationPlan) (now : Int)
    (sec : Secret Bytes) (k : String) : Bytes :=
  if k ∈ p.del then []
  else
    match p.set.find? fun e => decide (e.1 = k) with
    | some e => e.2
    | none =>
      if k = secretKeyRotationPhase then p.target.text
      else if k = secretKeyRotationSince ∧ p.keepSince = false then K.formatTime now
      else field k sec

theorem field_write (K : Toolkit Cert Key) (p : CaRotationPlan)
    (hset : (p.set.map Prod.fst).Nodup) (now : Int) (sec : Secret Bytes) (k : String) :
    field k (p.write K now sec) = p.fieldAfter K now sec k := by
  unfold CaRotationPlan.fieldAfter field CaRotationPlan.write
  simp only
  rw [lookup_foldl_erase]
  by_cases hdel : k ∈ p.del
  · simp [hdel]
  rw [if_neg hdel, if_neg hdel, map_range.lookup_inserts Prod.fst Prod.snd hset]
  cases p.set.find? fun e => decide (e.1 = k) with
  | some e => simp
  | none =>
    simp only [Option.map_none, Option.none_or]
    have hne : secretKeyRotationSince ≠ secretKeyRotationPhase := by decide
    by_cases hsince : k = secretKeyRotationSince
    · subst hsince
      cases p.keepSince <;> simp [hne]
    by_cases hphase : k = secretKeyRotationPhase
    · subst hphase
      cases p.keepSince <;> simp [lookup_insert_of_ne, hsince]
    · cases p.keepSince <;> simp [lookup_insert_of_ne, hsince, hphase]

@[simp] theorem knownPhase_text (p : CaPhase) : knownPhase p.text = some p := by
  cases p <;> decide

variable {new sec : Secret Bytes} {now : Int} {p : CaRotationPlan}

theorem read_write {K : Toolkit Cert Key} (hset : (p.set.map Prod.fst).Nodup)
    (hdata : new.data = (p.write K now sec).data) (k : String) :
    field k new = p.fieldAfter K now sec k := by
  rw [← field_write K p hset now sec k]
  unfold field
  rw [hdata]

/-! ## The turns of a rotation -/

/-- The texts are a certificate that signs and its private key. -/
def HoldsPair (K : Toolkit Cert Key) (certPEM keyPEM : Bytes) : Prop :=
  ∃ c k, parseCertificatePEM K certPEM = some c ∧ K.privateKey keyPEM = some k ∧
    K.signsCerts c = true ∧ K.keyMatches c k = true

/-- What holds of the packages that the rotation rests on. RFC 3339 keeps no part of a
second, and a year has four digits. -/
structure Toolkit.Lawful (K : Toolkit Cert Key) : Prop where
  stamp : ∀ t, 0 ≤ t → t < year10000 → K.parseTime (K.formatTime t) = some (truncSecond t)
  blank : ∀ pem, isBlank pem = true → K.blocks pem = []
  join : ∀ a b, ∀ x ∈ K.blocks a ++ K.blocks b, x ∈ K.blocks (trimNewlines a ++ [10] ++ b)
  minted : ∀ seed, HoldsPair K (K.newRootPEM seed).1 (K.newRootPEM seed).2
  keyless : K.privateKey [] = none

/-- The phase that is recorded agrees with the material that is stored. -/
structure Agrees (K : Toolkit Cert Key) (T : Terms) (st : CaRotationState) : Prop where
  known : st.unknown = false
  signer : HoldsPair K st.certPEM st.keyPEM
  steady : st.phase = .steady → st.nextCertPEM = [] ∧ st.nextKeyPEM = [] ∧ st.prevCertPEM = []
  publishing : st.phase = .publishing → HoldsPair K st.nextCertPEM st.nextKeyPEM ∧
    T.minted st.certPEM st.nextKeyPEM ∧ st.prevCertPEM = []
  signing : st.phase = .signing → st.nextCertPEM = [] ∧ st.nextKeyPEM = [] ∧
    (∃ c, parseCertificatePEM K st.prevCertPEM = some c) ∧ T.minted st.prevCertPEM st.keyPEM

/-- What one write does to a rotation whose phase agrees with its material. -/
inductive Turn (K : Toolkit Cert Key) (T : Terms) (st : CaRotationState) :
    Note → CaRotationState → Prop
  | keep {note : Note} {st' : CaRotationState} (hknown : st'.unknown = false)
    (hphase : st'.phase = st.phase) (hcert : st'.certPEM = st.certPEM)
    (hkey : st'.keyPEM = st.keyPEM) (hnext : st'.nextCertPEM = st.nextCertPEM)
    (hnextKey : st'.nextKeyPEM = st.nextKeyPEM) (hprev : st'.prevCertPEM = st.prevCertPEM)
    (hretire : st.phase ≠ .steady → st'.retireAfter = st.retireAfter) : Turn K T st note st'
  | publish {note : Note} {st' : CaRotationState} (seed : Nat) (hknown : st'.unknown = false)
    (hbefore : st.phase = .steady) (hphase : st'.phase = .publishing)
    (hcert : st'.certPEM = st.certPEM) (hkey : st'.keyPEM = st.keyPEM)
    (hnext : st'.nextCertPEM = (K.newRootPEM seed).1)
    (hnextKey : st'.nextKeyPEM = (K.newRootPEM seed).2) (hprev : st'.prevCertPEM = [])
    (hminted : T.minted st.certPEM (K.newRootPEM seed).2) : Turn K T st note st'
  | promote {note : Note} {st' : CaRotationState} (cfg : Config) (P : Int)
    (hknown : st'.unknown = false) (hbefore : st.phase = .publishing)
    (hphase : st'.phase = .signing) (hcert : st'.certPEM = st.nextCertPEM)
    (hkey : st'.keyPEM = st.nextKeyPEM) (hnext : st'.nextCertPEM = [])
    (hnextKey : st'.nextKeyPEM = []) (hprev : st'.prevCertPEM = st.certPEM)
    (hwriter : note.writer = .rotator cfg (some P)) (hterms : T.promoted cfg P)
    (hretire : st'.retireAfter = (K.parseTime (K.formatTime (P + cfg.retirementHold))).getD 0) :
    Turn K T st note st'
  | retire {note : Note} {st' : CaRotationState} (cfg : Config) (hknown : st'.unknown = false)
    (hbefore : st.phase = .signing) (hphase : st'.phase = .steady)
    (hcert : st'.certPEM = st.certPEM) (hkey : st'.keyPEM = st.keyPEM)
    (hnext : st'.nextCertPEM = st.nextCertPEM) (hnextKey : st'.nextKeyPEM = st.nextKeyPEM)
    (hprev : st'.prevCertPEM = []) (hwriter : note.writer = .rotator cfg none)
    (hgate : st.retireAfter ≤ note.committed) : Turn K T st note st'

variable {K : Toolkit Cert Key} {T : Terms}

theorem read_edit (hsame : ∀ k ∈ rotationKeys, field k new = field k sec) :
    readCARotation K new = { readCARotation K sec with force := (readCARotation K new).force } := by
  unfold rotationKeys at hsame
  simp only [mem_cons, not_mem_nil, or_false, forall_eq_or_imp, forall_eq] at hsame
  obtain ⟨h1, h2, h3, h4, h5, h6, h7, h8, h9⟩ := hsame
  simp only [readCARotation, h1, h2, h3, h4, h5, h6, h7, h8, h9]

variable {certPEM keyPEM : Bytes}

theorem HoldsPair.key_ne_nil (hK : K.Lawful) (h : HoldsPair K certPEM keyPEM) : keyPEM ≠ [] := by
  rintro rfl
  obtain ⟨_, k, _, hk, _⟩ := h
  rw [hK.keyless] at hk
  cases hk

theorem parseCertificatePEM_nil (hK : K.Lawful) : parseCertificatePEM K [] = none := by
  unfold parseCertificatePEM
  rw [hK.blank [] rfl]

theorem HoldsPair.cert_ne_nil (hK : K.Lawful) (h : HoldsPair K certPEM keyPEM) : certPEM ≠ [] := by
  rintro rfl
  obtain ⟨c, _, hc, _⟩ := h
  rw [parseCertificatePEM_nil hK] at hc
  cases hc

variable {cfg : Config} {n : Int} {st : CaRotationState}

theorem Planned.set_nodup (h : Planned K T cfg st n p) : (p.set.map Prod.fst).Nodup := by
  cases h <;> simp <;> decide

theorem phase_of_text {p : CaPhase} (h : field secretKeyRotationPhase sec = p.text) :
    (readCARotation K sec).phase = p ∧ (readCARotation K sec).unknown = false := by
  simp [readCARotation, CaRotationState.unknown, h]

theorem retireAfter_of_field
    (h : field secretKeyRotationRetireAfter new = field secretKeyRotationRetireAfter sec) :
    (readCARotation K new).retireAfter = (readCARotation K sec).retireAfter := by
  simp only [readCARotation, h]

variable {k : String}

theorem mem_strayRotationKeys (h : k ∈ strayRotationKeys st) :
    k ∈ [secretKeyCANextCert, secretKeyCANextKey,
      secretKeyCAPrevCert, secretKeyRotationHoldout, secretKeyRotationRetireAfter] := by
  obtain ⟨e, he, rfl⟩ := mem_map.mp h
  have := mem_map_of_mem (f := fun e => e.1) (mem_filter.mp he).1
  exact this

/-- Tidying up finds none of the material of a steady state. -/
theorem fieldAfter_tidy (hk : field k sec = []) (hne : k ≠ secretKeyRotationPhase) :
    CaRotationPlan.fieldAfter K
      { target := .steady, keepSince := true, del := strayRotationKeys st } now sec k = [] := by
  unfold CaRotationPlan.fieldAfter
  split
  · rfl
  rw [List.find?_nil]
  simp only [Bool.true_eq_false, and_false, if_false]
  exact hk

/-- Tidying up touches nothing but what belongs to no phase. -/
theorem fieldAfter_tidy_of_notMem
    (hk : k ∉ [secretKeyCANextCert, secretKeyCANextKey, secretKeyCAPrevCert,
      secretKeyRotationHoldout, secretKeyRotationRetireAfter]) : CaRotationPlan.fieldAfter K
      { target := .steady, keepSince := true, del := strayRotationKeys st } now sec k =
    CaRotationPlan.fieldAfter K { target := .steady, keepSince := true } now sec k := by
  unfold CaRotationPlan.fieldAfter
  rw [if_neg fun h => hk (mem_strayRotationKeys h), if_neg not_mem_nil]

theorem Planned.phase_after (h : Planned K T cfg st n p)
    (hfield : ∀ k, field k new = p.fieldAfter K now sec k) :
    (readCARotation K new).phase = p.target ∧ (readCARotation K new).unknown = false := by
  apply phase_of_text
  rw [hfield]
  cases h with
  | tidy _ =>
    rw [fieldAfter_tidy_of_notMem (by decide)]
    rfl
  | _ => rfl

variable {v w : Version Bytes Note}

theorem Link.turn (hK : K.Lawful) (hagrees : Agrees K T (readCARotation K v.secret))
    (h : Link K T v w) :
    Turn K T (readCARotation K v.secret) w.note (readCARotation K w.secret) := by
  cases h with
  | edit _ hsame =>
    rw [read_edit hsame]
    exact .keep hagrees.known rfl rfl rfl rfl rfl rfl fun _ => rfl
  | @rotate cfg n now p hknown hplan hterms htime hwriter hdata =>
    have hfield := read_write hplan.set_nodup hdata
    obtain ⟨hphase, hknown'⟩ := hplan.phase_after hfield
    cases hplan with
    | consume | repair =>
      exact .keep hknown' hphase (hfield _) (hfield _) (hfield _) (hfield _) (hfield _)
        fun _ => retireAfter_of_field (hfield _)
    | holdout h =>
      exact .keep hknown' (hphase.trans h.symm) (hfield _) (hfield _) (hfield _) (hfield _)
        (hfield _) fun _ => retireAfter_of_field (hfield _)
    | tidy h =>
      obtain ⟨hnext, hnextKey, hprev⟩ := hagrees.steady h
      have hkeep : ∀ k, k ∉ [secretKeyCANextCert, secretKeyCANextKey, secretKeyCAPrevCert,
          secretKeyRotationHoldout, secretKeyRotationRetireAfter] → field k w.secret =
          CaRotationPlan.fieldAfter K { target := .steady, keepSince := true } now v.secret k :=
        fun k hk => (hfield k).trans (fieldAfter_tidy_of_notMem hk)
      refine .keep hknown' (hphase.trans h.symm) (hkeep _ (by decide)) (hkeep _ (by decide))
        ?_ ?_ ?_ fun hne => absurd h hne
      · exact ((hfield _).trans (fieldAfter_tidy hnext (by decide))).trans hnext.symm
      · exact ((hfield _).trans (fieldAfter_tidy hnextKey (by decide))).trans hnextKey.symm
      · exact ((hfield _).trans (fieldAfter_tidy hprev (by decide))).trans hprev.symm
    | publish h seed force hminted =>
      exact .publish seed hknown' h hphase (hfield _) (hfield _) (hfield _) (hfield _)
        ((hfield _).trans (hagrees.steady h).2.2) hminted
    | abort h hmissing =>
      obtain ⟨hpair, _⟩ := hagrees.publishing h
      rcases hmissing with hmissing | hmissing
      · exact absurd hmissing (hpair.cert_ne_nil hK)
      · exact absurd hmissing (hpair.key_ne_nil hK)
    | promote h =>
      refine .promote cfg n hknown' h hphase (hfield _) (hfield _) (hfield _) (hfield _)
        (hfield _) hwriter (hterms n rfl) ?_
      have hretire : field secretKeyRotationRetireAfter w.secret =
          K.formatTime (n + cfg.retirementHold) := hfield _
      simp only [readCARotation, hretire]
    | finish h hmissing =>
      obtain ⟨_, _, ⟨c, hc⟩, _⟩ := hagrees.signing h
      rw [hmissing, parseCertificatePEM_nil hK] at hc
      cases hc
    | retire h hgate =>
      refine .retire cfg hknown' h hphase (hfield _) (hfield _) (hfield _) (hfield _) (hfield _)
        hwriter ?_
      calc (readCARotation K v.secret).retireAfter
          ≤ retirementGate cfg (readCARotation K v.secret) := le_max_right _ _
        _ ≤ n := hgate
        _ ≤ w.note.committed := htime

variable {note : Note} {st' : CaRotationState}

theorem Agrees.turn (hK : K.Lawful) (h : Agrees K T st) (ht : Turn K T st note st') :
    Agrees K T st' := by
  cases ht with
  | keep hknown hphase hcert hkey hnext hnextKey hprev =>
    refine ⟨hknown, ?_, ?_, ?_, ?_⟩
    · rw [hcert, hkey]
      exact h.signer
    · rw [hphase, hnext, hnextKey, hprev]
      exact h.steady
    · rw [hphase, hnext, hnextKey, hprev, hcert]
      exact h.publishing
    · rw [hphase, hnext, hnextKey, hprev, hkey]
      exact h.signing
  | publish seed hknown _ hphase hcert hkey hnext hnextKey hprev hminted =>
    refine ⟨hknown, ?_, ?_, fun _ => ?_, ?_⟩
    · rw [hcert, hkey]
      exact h.signer
    · intro hne
      rw [hphase] at hne
      cases hne
    · rw [hnext, hnextKey, hcert]
      exact ⟨hK.minted seed, hminted, hprev⟩
    · intro hne
      rw [hphase] at hne
      cases hne
  | promote cfg P hknown hbefore hphase hcert hkey hnext hnextKey hprev =>
    obtain ⟨hpair, hminted, _⟩ := h.publishing hbefore
    refine ⟨hknown, ?_, ?_, ?_, fun _ => ⟨hnext, hnextKey, ?_, ?_⟩⟩
    · rw [hcert, hkey]
      exact hpair
    · intro hne
      rw [hphase] at hne
      cases hne
    · intro hne
      rw [hphase] at hne
      cases hne
    · obtain ⟨c, _, hc, _⟩ := h.signer
      exact ⟨c, by rw [hprev, hc]⟩
    · rw [hprev, hkey]
      exact hminted
  | retire cfg hknown hbefore hphase hcert hkey hnext hnextKey hprev =>
    obtain ⟨hnone, hnoneKey, _⟩ := h.signing hbefore
    refine ⟨hknown, ?_, fun _ => ?_, ?_, ?_⟩
    · rw [hcert, hkey]
      exact h.signer
    · exact ⟨hnext.trans hnone, hnextKey.trans hnoneKey, hprev⟩
    · intro hne
      rw [hphase] at hne
      cases hne
    · intro hne
      rw [hphase] at hne
      cases hne

variable {older s : Server} {v₀ : Version Bytes Note}

theorem History.agrees (hK : K.Lawful) (h₀ : Agrees K T (readCARotation K v₀.secret))
    (h : History K T v₀ s) (hs : v :: older <:+ s) : Agrees K T (readCARotation K v.secret) := by
  have hv := h.suffix hs
  clear h hs
  generalize hl : v :: older = l at hv
  induction hv generalizing v older with
  | start =>
    cases hl
    exact h₀
  | write _ hlink ih =>
    cases hl
    have hagrees := ih rfl
    exact hagrees.turn hK (hlink.turn hK hagrees)

/-! ## The trusted roots -/

def rootsIn (K : Toolkit Cert Key) (pem : Bytes) : List Cert := (K.blocks pem).filterMap id

/-- The signer, or one of the additional roots. -/
def Trusts (K : Toolkit Cert Key) (base : Bytes) (st : CaRotationState) (c : Cert) : Prop :=
  parseCertificatePEM K st.certPEM = some c ∨ c ∈ rootsIn K (st.additionalRoots base)

/-- Text that is put after `pem` is read as it is read alone. -/
def Whole (K : Toolkit Cert Key) (pem : Bytes) : Prop :=
  isBlank pem = false → ∀ b, K.blocks (trimNewlines pem ++ [10] ++ b) = K.blocks pem ++ K.blocks b

variable {b : Bytes} {c : Cert}

theorem mem_rootsIn_join (hK : K.Lawful) {a : Bytes} (h : c ∈ rootsIn K a ∨ c ∈ rootsIn K b) :
    c ∈ rootsIn K (joinRootsPEM a b) := by
  unfold joinRootsPEM
  split
  · rename_i ha
    rcases h with h | h
    · unfold rootsIn at h
      rw [hK.blank a ha] at h
      cases h
    · exact h
  · split
    · rename_i hb
      rcases h with h | h
      · exact h
      unfold rootsIn at h
      rw [hK.blank b hb] at h
      cases h
    · unfold rootsIn at h ⊢
      simp only [mem_filterMap, id_eq, exists_eq_right] at h ⊢
      exact hK.join a b (some c) (mem_append.mpr h)

variable {base : Bytes}

theorem mem_rootsIn_join_iff (hK : K.Lawful) (hbase : Whole K base) :
    c ∈ rootsIn K (joinRootsPEM base b) ↔ c ∈ rootsIn K base ∨ c ∈ rootsIn K b := by
  constructor
  · intro h
    unfold joinRootsPEM at h
    split at h
    · exact .inr h
    rename_i hblank
    split at h
    · exact .inl h
    unfold rootsIn at h
    rw [hbase (by simpa using hblank) b, filterMap_append, mem_append] at h
    exact h
  · exact mem_rootsIn_join hK

theorem mem_rootsIn_of_parse {pem : Bytes} {d : Cert} (h : parseCertificatePEM K pem = some c) :
    d ∈ rootsIn K pem ↔ d = c := by
  unfold parseCertificatePEM at h
  split at h
  · rename_i c' hc
    cases h
    unfold rootsIn
    rw [hc]
    simp
  · cases h

theorem rootsIn_nil (hK : K.Lawful) : rootsIn K [] = [] := by
  unfold rootsIn
  rw [hK.blank [] rfl]
  rfl

/-- The trusted roots of a rotation whose phase agrees with its material. -/
theorem trusts_iff (hK : K.Lawful) (hbase : Whole K base) (hknown : st.unknown = false) :
    Trusts K base st c ↔ parseCertificatePEM K st.certPEM = some c ∨ c ∈ rootsIn K base ∨
      (st.phase = .publishing ∧ c ∈ rootsIn K st.nextCertPEM) ∨
      (st.phase = .signing ∧ c ∈ rootsIn K st.prevCertPEM) := by
  unfold Trusts CaRotationState.additionalRoots
  rw [hknown]
  cases hphase : st.phase <;> simp [mem_rootsIn_join_iff hK hbase, rootsIn_nil hK]

theorem Turn.signer_trusted (hK : K.Lawful) (h : Agrees K T st) (ht : Turn K T st note st')
    (hc : parseCertificatePEM K st'.certPEM = some c) : Trusts K base st c := by
  cases ht with
  | promote cfg P _ hbefore _ hcert =>
    rw [hcert] at hc
    right
    unfold CaRotationState.additionalRoots
    rw [h.known, hbefore]
    exact mem_rootsIn_join hK (.inr ((mem_rootsIn_of_parse hc).mpr rfl))
  | keep _ _ hcert => exact .inl (by rw [← hcert, hc])
  | publish _ _ _ _ hcert => exact .inl (by rw [← hcert, hc])
  | retire _ _ _ _ hcert => exact .inl (by rw [← hcert, hc])

/-- A promotion moves the signer and leaves the trusted roots. -/
theorem Turn.trusts_promote (hK : K.Lawful) (hbase : Whole K base) (h : Agrees K T st)
    (ht : Turn K T st note st') (hbefore : st.phase = .publishing) (hphase : st'.phase = .signing)
    (c : Cert) : Trusts K base st' c ↔ Trusts K base st c := by
  have hagrees' := h.turn hK ht
  cases ht with
  | promote _ _ _ _ _ hcert _ _ _ hprev =>
    rw [trusts_iff hK hbase hagrees'.known, trusts_iff hK hbase h.known, hcert, hprev, hbefore,
      hphase]
    obtain ⟨old, _, hold, _⟩ := h.signer
    obtain ⟨⟨new, _, hnew, _⟩, _⟩ := h.publishing hbefore
    rw [hold, hnew, mem_rootsIn_of_parse hold, mem_rootsIn_of_parse hnew]
    simp only [Option.some.injEq, reduceCtorEq, false_and, true_and, false_or, or_false]
    tauto
  | keep _ hsame =>
    rw [hsame, hbefore] at hphase
    cases hphase
  | publish _ _ hst | retire _ _ hst =>
    rw [hbefore] at hst
    cases hst

/-- A root stays trusted, or it is the outgoing one and the rotation ends. -/
theorem Turn.trusts_or_retires (hK : K.Lawful) (hbase : Whole K base) (h : Agrees K T st)
    (ht : Turn K T st note st') (hc : Trusts K base st c) :
    Trusts K base st' c ∨ st.phase = .signing ∧ st'.phase = .steady ∧
      parseCertificatePEM K st.prevCertPEM = some c ∧
      (∃ cfg, note.writer = .rotator cfg none) ∧ st.retireAfter ≤ note.committed := by
  have hagrees' := h.turn hK ht
  have hiff' := trusts_iff hK hbase hagrees'.known (c := c)
  have hiff := trusts_iff hK hbase h.known (c := c)
  cases ht with
  | keep _ hphase hcert _ hnext _ hprev =>
    left
    rw [hiff', hcert, hphase, hnext, hprev, ← hiff]
    exact hc
  | publish _ _ hbefore _ hcert =>
    left
    rw [hiff, hbefore] at hc
    rw [hiff', hcert]
    rcases hc with hc | hc | ⟨hne, _⟩ | ⟨hne, _⟩
    · exact .inl hc
    · exact .inr (.inl hc)
    · cases hne
    · cases hne
  | promote cfg P hknown hbefore hphase hcert hkey hnext hnextKey hprev hwriter hterms hretire =>
    left
    rw [Turn.trusts_promote hK hbase h (.promote cfg P hknown hbefore hphase hcert hkey hnext
      hnextKey hprev hwriter hterms hretire) hbefore hphase]
    exact hc
  | retire cfg _ hbefore hphase hcert _ _ _ _ hwriter hgate =>
    rw [hiff, hbefore] at hc
    rcases hc with hc | hc | ⟨hne, _⟩ | ⟨_, hc⟩
    · left
      rw [hiff', hcert]
      exact .inl hc
    · left
      rw [hiff']
      exact .inr (.inl hc)
    · cases hne
    · right
      obtain ⟨_, _, ⟨prev, hprev⟩, _⟩ := h.signing hbefore
      obtain rfl := (mem_rootsIn_of_parse hprev).mp hc
      exact ⟨hbefore, hphase, hprev, ⟨cfg, hwriter⟩, hgate⟩

/-! ## Promotions -/

/-- The version `p` over `v` is a promotion, planned under `cfg` when the clock read `P`,
and `root` is the root that it takes out of signing. -/
structure Promotion (K : Toolkit Cert Key) (p v : Version Bytes Note) (cfg : Config) (P : Int)
    (root : Cert) : Prop where
  writer : p.note.writer = .rotator cfg (some P)
  before : (readCARotation K v.secret).phase = .publishing
  after : (readCARotation K p.secret).phase = .signing
  outgoing : parseCertificatePEM K (readCARotation K v.secret).certPEM = some root

/-- In the signing phase the horizon is the one that the promotion has stored. -/
theorem History.promotion (hK : K.Lawful) (h₀ : Agrees K T (readCARotation K v₀.secret))
    (hsteady : (readCARotation K v₀.secret).phase = .steady) (h : History K T v₀ (v :: older))
    (hphase : (readCARotation K v.secret).phase = .signing) {root : Cert}
    (hroot : parseCertificatePEM K (readCARotation K v.secret).prevCertPEM = some root) :
    ∃ p v' older' cfg P, p :: v' :: older' <:+ v :: older ∧ Promotion K p v' cfg P root ∧
      T.promoted cfg P ∧ (readCARotation K v.secret).retireAfter =
        (K.parseTime (K.formatTime (P + cfg.retirementHold))).getD 0 := by
  generalize hl : v :: older = l at h
  induction h generalizing v older with
  | start =>
    cases hl
    rw [hsteady] at hphase
    cases hphase
  | @write w u older h hlink ih =>
    cases hl
    have hagrees := h.agrees hK h₀ (suffix_refl _)
    have hturn := hlink.turn hK hagrees
    cases hturn with
    | keep _ hsame _ _ _ _ hprev hretire =>
      rw [hsame] at hphase
      rw [hprev] at hroot
      obtain ⟨p, v', older', cfg, P, hsuffix, hprom, hterms, hafter⟩ := ih hphase hroot rfl
      refine ⟨p, v', older', cfg, P, hsuffix.trans (suffix_cons _ _), hprom, hterms, ?_⟩
      rw [hretire (by rw [hphase]; decide), hafter]
    | publish _ _ _ hpub =>
      rw [hphase] at hpub
      cases hpub
    | promote cfg P _ hbefore hafter _ _ _ _ hprev hwriter hterms hretire =>
      rw [hprev] at hroot
      exact ⟨w, u, older, cfg, P, suffix_refl _, ⟨hwriter, hbefore, hafter, hroot⟩, hterms, hretire⟩
    | retire _ _ _ hsteady' =>
      rw [hphase] at hsteady'
      cases hsteady'

/-- A root that was trusted and is no more was removed by some write. -/
theorem exists_removal (hv : v :: older <:+ w :: s)
    (htrust : Trusts K base (readCARotation K v.secret) c)
    (hlost : ¬ Trusts K base (readCARotation K w.secret) c) :
    ∃ w' v' older', w' :: v' :: older' <:+ w :: s ∧ Trusts K base (readCARotation K v'.secret) c ∧
      ¬ Trusts K base (readCARotation K w'.secret) c := by
  induction s generalizing w with
  | nil =>
    rcases suffix_cons_iff.mp hv with heq | hnil
    · cases heq
      exact absurd htrust hlost
    · cases suffix_nil.mp hnil
  | cons u s ih =>
    rcases suffix_cons_iff.mp hv with heq | hs
    · cases heq
      exact absurd htrust hlost
    by_cases hu : Trusts K base (readCARotation K u.secret) c
    · exact ⟨w, u, s, suffix_refl _, hu, hlost⟩
    · obtain ⟨w', v', older', hsuffix, h⟩ := ih hs hu
      exact ⟨w', v', older', hsuffix.trans (suffix_cons _ _), h⟩

end prom_fleet.rotation
