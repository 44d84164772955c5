-- What a signing request decides of the certificate that it gets: its public key and nothing
-- else. The identity in the certificate is the cluster ID that the hub has given, as long as
-- the library can read the certificate back.
import PromFleet.SpokeCA

namespace prom_fleet.ca

open x509 List

variable {Key : Type} {L : Library Key} {c : CA Key} {d : Draw}

/-! ## Names in a URL -/

variable {s : String}

theorem nameMatches_all {middle : Char → Bool} {n : Nat}
    (hmiddle : ∀ ch, isAlnum ch = true → middle ch = true) (h : nameMatches middle n s = true) :
    s ≠ "" ∧ s.toList.all middle = true := by
  have hne : s ≠ "" := by
    intro hs
    subst hs
    simp [nameMatches] at h
  refine ⟨hne, ?_⟩
  unfold nameMatches at h
  split at h
  · cases h
  · rename_i ch hs
    simp [hs, hmiddle ch h]
  rename_i ch e rest hs
  simp only [Bool.and_eq_true, decide_eq_true_eq] at h
  obtain ⟨⟨⟨hfirst, -⟩, hinner⟩, hlast⟩ := h
  -- the first and the last character are alphanumeric, the others are in the middle
  rw [hs, all_cons, hmiddle ch hfirst, Bool.true_and,
    ← dropLast_append_getLast (cons_ne_nil e rest), all_append, hinner]
  simp [hmiddle _ hlast]

theorem plainChar_of_isAlnum {ch : Char} (h : isAlnum ch = true) : plainChar ch = true := by
  unfold isAlnum at h
  unfold plainChar
  rw [h]
  rfl

variable {id : String}

theorem validClusterID_plain (h : validClusterID id = true) : id.toList.all plainChar = true := by
  have hall := (nameMatches_all (fun ch hch => by simp [hch]) h).2
  rw [all_eq_true] at hall ⊢
  intro ch hch
  have hchar := hall ch hch
  simp only [Bool.or_eq_true, decide_eq_true_eq] at hchar
  rcases hchar with hchar | rfl
  · exact plainChar_of_isAlnum hchar
  · rfl

theorem trustDomain_plain (h : trustDomainMatches s = true) :
    s ≠ "" ∧ s.toList.all plainChar = true := by
  obtain ⟨hne, hall⟩ := nameMatches_all (fun ch hch => by simp [hch]) h
  refine ⟨hne, ?_⟩
  rw [all_eq_true] at hall ⊢
  intro ch hch
  have hchar := hall ch hch
  simp only [Bool.or_eq_true, decide_eq_true_eq] at hchar
  rcases hchar with (hchar | rfl) | rfl
  · exact plainChar_of_isAlnum hchar
  · rfl
  · rfl

theorem CA.trustDomain_matches (c : CA Key) : trustDomainMatches c.opts.trustDomain = true := by
  have h := c.valid
  simp only [Options.valid, Bool.and_eq_true] at h
  exact h.1.1

theorem spokeURI_plain (c : CA Key) (h : validClusterID id = true) : (c.spokeURI id).Plain where
  scheme := by
    change "pmf" ≠ "" ∧ "pmf".toList.all Char.isLower = true
    decide
  host := trustDomain_plain c.trustDomain_matches
  path := by
    refine ⟨"spoke/".toList ++ id.toList, ?_, ?_⟩
    · simp [CA.spokeURI]
    rw [all_append, Bool.and_eq_true]
    constructor
    · decide
    have hid := validClusterID_plain h
    rw [all_eq_true] at hid ⊢
    intro ch hch
    simp [hid ch hch]
  bare := by simp [CA.spokeURI]

/-! ## What has been signed -/

variable {csr : CertificateRequest} {csrDER : Bytes}

theorem checkedRequest_ok (h : checkedRequest L csrDER id = .ok csr) :
    validClusterID id = true ∧ L.parseCertificateRequest csrDER = .ok csr := by
  obtain ⟨_, hid, h⟩ := bind_eq_ok.mp h
  obtain ⟨csr', hparse, h⟩ := bind_eq_ok.mp h
  obtain ⟨_, -, h⟩ := bind_eq_ok.mp h
  obtain ⟨_, -, h⟩ := bind_eq_ok.mp h
  cases h
  exact ⟨ensure_eq_ok.mp hid, mapError_eq_ok.mp hparse⟩

variable {call : SignCall Key}

/-- The template that is signed: the caller's with a serial and a window of its own. -/
theorem fill_ok {tmpl : Certificate} {pub : PublicKey} {ttl : Int}
    (h : c.fill d tmpl pub ttl = .ok call) :
    call.pub = pub ∧ call.template.uris = tmpl.uris ∧ call.template.isCA = tmpl.isCA ∧
      call.template.notAfter ≤ d.now + ttl ∧ 0 < call.template.serialNumber ∧
      call.template.serialNumber ≤ 2 ^ 128 := by
  obtain ⟨_, -, h⟩ := bind_eq_ok.mp h
  obtain ⟨n, -, h⟩ := bind_eq_ok.mp h
  cases h
  have hn := n.isLt
  refine ⟨rfl, rfl, rfl, ?_, ?_, ?_⟩
  · dsimp only
    split
    · omega
    · omega
  · dsimp only
    omega
  · dsimp only
    omega

theorem signCall_simple (h : c.signCall L d csrDER id = .ok call) : call.template.Simple := by
  obtain ⟨csr, hcsr, hfill⟩ := bind_eq_ok.mp h
  have hid := (checkedRequest_ok hcsr).1
  obtain ⟨-, huris, -, -, hpos, hle⟩ := fill_ok hfill
  obtain ⟨_, -, hfill⟩ := bind_eq_ok.mp hfill
  obtain ⟨n, -, hfill⟩ := bind_eq_ok.mp hfill
  cases hfill
  refine ⟨?_, ⟨rfl, rfl, rfl⟩, ?_, ⟨hpos, hle⟩, rfl⟩
  · intro u hu
    rw [mem_singleton.mp hu]
    exact spokeURI_plain c hid
  · have hplain := validClusterID_plain hid
    simp only [CA.spokeTemplate, String.toList_append, all_append, Bool.and_eq_true]
    refine ⟨by decide, ?_⟩
    rw [all_eq_true] at hplain ⊢
    intro ch hch
    simp [hplain ch hch]

theorem signCall_of_key {der₁ der₂ : Bytes} {csr₁ csr₂ : CertificateRequest}
    {call₁ call₂ : SignCall Key} (hparse₁ : L.parseCertificateRequest der₁ = .ok csr₁)
    (hparse₂ : L.parseCertificateRequest der₂ = .ok csr₂) (hkey : csr₁.publicKey = csr₂.publicKey)
    (h₁ : c.signCall L d der₁ id = .ok call₁) (h₂ : c.signCall L d der₂ id = .ok call₂) :
    call₁ = call₂ := by
  obtain ⟨csr, hcsr, hfill₁⟩ := bind_eq_ok.mp h₁
  obtain ⟨csr', hcsr', hfill₂⟩ := bind_eq_ok.mp h₂
  have heq : csr₁ = csr := Except.ok.inj (hparse₁.symm.trans (checkedRequest_ok hcsr).2)
  have heq' : csr₂ = csr' := Except.ok.inj (hparse₂.symm.trans (checkedRequest_ok hcsr').2)
  subst heq
  subst heq'
  rw [← hkey, hfill₁] at hfill₂
  exact Except.ok.inj hfill₂

theorem signCall_ok (hparse : L.parseCertificateRequest csrDER = .ok csr)
    (h : c.signCall L d csrDER id = .ok call) :
    validClusterID id = true ∧ call.pub = csr.publicKey ∧
      call.template.uris = [c.spokeURI id] ∧ call.template.isCA = false ∧
      call.template.notAfter ≤ d.now + c.opts.spokeCertTTL := by
  obtain ⟨csr', hcsr, hfill⟩ := bind_eq_ok.mp h
  obtain ⟨hid, hparse'⟩ := checkedRequest_ok hcsr
  have heq : csr = csr' := Except.ok.inj (hparse.symm.trans hparse')
  subst heq
  obtain ⟨hpub, huris, hca, hend, -, -⟩ := fill_ok hfill
  exact ⟨hid, hpub, huris, hca, hend⟩

/-- A call that succeeds has signed a template, and gives what is read back from it. -/
theorem issue_ok {out : Bytes × Option Certificate}
    (h : c.issueSpokeFromCSR L d csrDER id = .ok out) :
    ∃ call der, c.signCall L d csrDER id = .ok call ∧
      L.createCertificate d.random call.template call.parent call.pub call.key = .ok der ∧
      out = (L.encodePEM der, (L.parseCertificate der).toOption) := by
  obtain ⟨csr, hcsr, h⟩ := bind_eq_ok.mp h
  obtain ⟨⟨der, leaf⟩, hsign, h⟩ := bind_eq_ok.mp h
  obtain ⟨call, hfill, hsign⟩ := bind_eq_ok.mp hsign
  obtain ⟨der', hcreate, hsign⟩ := bind_eq_ok.mp hsign
  cases hsign
  cases h
  exact ⟨call, der, bind_eq_ok.mpr ⟨csr, hcsr, hfill⟩, mapError_eq_ok.mp hcreate, rfl⟩

/-! ## What a certificate proves -/

theorem cutPrefix_append (start s : String) : cutPrefix (start ++ s) start = some s := by
  have hstart : start.toList.isPrefixOf (start ++ s).toList = true := by simp
  unfold cutPrefix
  rw [if_pos hstart, String.toList_append, ← String.length_toList, drop_left, String.ofList_toList]

variable {cert : Certificate}

theorem identityFromCert_spokeURI (hid : validClusterID id = true)
    (huris : cert.uris = [c.spokeURI id]) : c.identityFromCert (some cert) =
      .ok { clusterID := id, certSerial := serialHex cert.serialNumber
            certNotAfter := cert.notAfter } := by
  simp [CA.identityFromCert, huris, CA.spokeURI, cutPrefix_append, hid]

/-- It proves no other cluster ID, to any authority. -/
theorem identityFromCert_unique {c' : CA Key} {ident : tunnel.Identity}
    (huris : cert.uris = [c.spokeURI id]) (h : c'.identityFromCert (some cert) = .ok ident) :
    ident.clusterID = id := by
  simp only [CA.identityFromCert, huris, CA.spokeURI, cutPrefix_append] at h
  repeat' split at h
  all_goals cases h
  rfl

/-- Two requests with the same key are given the same template, and its URI gives the cluster ID in
the trust domain. There is a certificate that is read back and gives it exactly if no label of the
trust domain is empty. -/
theorem request_contributes_its_key_iff_labels_are_not_empty (hL : L.Faithful) (id : String)
    (der₁ der₂ : Bytes) (csr₁ csr₂ : CertificateRequest) (out₁ out₂ : Bytes × Option Certificate)
    (hparse₁ : L.parseCertificateRequest der₁ = .ok csr₁)
    (hparse₂ : L.parseCertificateRequest der₂ = .ok csr₂)
    (hkey : csr₁.publicKey = csr₂.publicKey)
    (h₁ : c.issueSpokeFromCSR L d der₁ id = .ok out₁)
    (h₂ : c.issueSpokeFromCSR L d der₂ id = .ok out₂) :
    (∃ call, c.signCall L d der₁ id = .ok call ∧ c.signCall L d der₂ id = .ok call ∧
      call.template.isCA = false ∧ call.template.notAfter ≤ d.now + c.opts.spokeCertTTL ∧
      ∃ ident, c.identityFromCert (some call.template) = .ok ident ∧ ident.clusterID = id) ∧
    out₁ = out₂ ∧
    (∀ leaf, out₁.2 = some leaf → leaf.isCA = false ∧ leaf.notAfter ≤ d.now + c.opts.spokeCertTTL ∧
      leaf.publicKey = csr₁.publicKey ∧
      ∀ (c' : CA Key) ident, c'.identityFromCert (some leaf) = .ok ident → ident.clusterID = id) ∧
    ((∃ leaf ident, out₁.2 = some leaf ∧ c.identityFromCert (some leaf) = .ok ident ∧
        ident.clusterID = id ∧ leaf.uris.map URL.host = [c.opts.trustDomain]) ↔
      labelled c.opts.trustDomain = true) := by
  obtain ⟨call, der, hcall, hcreate, hout⟩ := issue_ok h₁
  obtain ⟨call₂, der₂', hcall₂, hcreate₂, hout₂⟩ := issue_ok h₂
  have hsame : call = call₂ := signCall_of_key hparse₁ hparse₂ hkey hcall hcall₂
  subst hsame
  have hder : der = der₂' := Except.ok.inj (hcreate.symm.trans hcreate₂)
  subst hder
  obtain ⟨hid, hpub, huris, hca, hend⟩ := signCall_ok hparse₁ hcall
  have hsimple := signCall_simple hcall
  refine ⟨⟨call, hcall, hcall₂, hca, hend, ?_⟩, hout.trans hout₂.symm, ?_, ?_⟩
  · exact ⟨_, identityFromCert_spokeURI hid huris, rfl⟩
  · intro leaf hleaf
    rw [hout] at hleaf
    obtain ⟨hu, -, htime, hisCA, hk⟩ :=
      hL.fields _ _ _ _ _ _ _ hsimple hcreate (toOption_eq_some.mp hleaf)
    refine ⟨hisCA.trans hca, ?_, hk.trans hpub, ?_⟩
    · rw [htime]
      exact (wholeSeconds_le _).trans hend
    · intro c' ident
      exact identityFromCert_unique (hu.trans huris)
  · have hhosts : (∀ u ∈ call.template.uris, labelled u.host = true) ↔
        labelled c.opts.trustDomain = true := by
      rw [huris, forall_mem_singleton]
      rfl
    rw [← hhosts, ← hL.reads _ _ _ _ _ _ hsimple hcreate]
    constructor
    · rintro ⟨leaf, -, hleaf, -⟩
      rw [hout] at hleaf
      exact ⟨leaf, toOption_eq_some.mp hleaf⟩
    rintro ⟨leaf, hleaf⟩
    obtain ⟨hu, -⟩ := hL.fields _ _ _ _ _ _ _ hsimple hcreate hleaf
    rw [huris] at hu
    refine ⟨leaf, _, ?_, identityFromCert_spokeURI hid hu, rfl, ?_⟩
    · rw [hout]
      exact toOption_eq_some.mpr hleaf
    · rw [hu]
      rfl

/-- Two requests with one key, and the certificate for it in a trust domain. -/
def adminRequest : CertificateRequest where
  subject := { commonName := "admin" }
  extensions := ["basicConstraints: CA"]
  publicKey := .ecdsa "P-256" 1 2

def plainRequest : CertificateRequest where
  publicKey := .ecdsa "P-256" 1 2

variable (domain : String)

def prodCertificate : Certificate where
  subject := { commonName := "spoke:prod" }
  uris := [{ scheme := "pmf", host := domain, path := "/spoke/prod" }]
  keyUsage := [.digitalSignature]
  extKeyUsage := [.clientAuth]
  basicConstraintsValid := true
  serialNumber := 7
  notBefore := 100000000000
  notAfter := 4000000000000
  publicKey := .ecdsa "P-256" 1 2

def prodLibrary : Library Unit :=
  shelf [adminRequest, plainRequest] [prodCertificate domain]

def prodAuthority (valid : (Options.mk domain 3600000000000 3600000000000).valid = true) :
    CA Unit where
  opts := Options.mk domain 3600000000000 3600000000000
  material := { cert := { isCA := true, notAfter := 9000000000000 }, key := (), roots := [] }
  valid := valid

/-- In the default trust domain both requests get the certificate of the cluster `prod`. -/
theorem prod_certificate_in_fleet_local :
    ∃ (c : CA Unit) (leaf : Certificate) (ident : tunnel.Identity),
      c.opts.trustDomain = "fleet.local" ∧
      (prodLibrary "fleet.local").parseCertificate [] = .ok leaf ∧
      c.identityFromCert (some leaf) = .ok ident ∧ ident.clusterID = "prod" := by
  let c : CA Unit := prodAuthority "fleet.local" (by decide)
  let d : Draw := { now := 400000000000, serial := .ok ⟨6, by decide⟩, random := [] }
  have hissue : ∀ der ∈ [[], [0]], c.issueSpokeFromCSR (prodLibrary "fleet.local") d der "prod" =
      .ok ([], some (prodCertificate "fleet.local")) := by
    decide +kernel
  have hparse : (prodLibrary "fleet.local").parseCertificateRequest [] = .ok adminRequest ∧
      (prodLibrary "fleet.local").parseCertificateRequest [0] = .ok plainRequest := by
    decide +kernel
  obtain ⟨-, -, -, hread⟩ := request_contributes_its_key_iff_labels_are_not_empty
    (shelf_faithful _ _) "prod" [] [0] adminRequest plainRequest _ _ hparse.1 hparse.2 rfl
    (hissue [] (by simp)) (hissue [0] (by simp))
  obtain ⟨leaf, ident, hleaf, hident, hid, -⟩ := hread.mpr (by decide +kernel)
  refine ⟨c, leaf, ident, rfl, ?_, hident, hid⟩
  cases hleaf
  decide +kernel

/-- In the trust domain `a..b`, which the options allow, a certificate is signed that cannot
be read: the hub goes on with a nil certificate, which proves nothing. -/
theorem certificate_of_an_empty_label_proves_nothing :
    ∃ (L : Library Unit) (c : CA Unit) (d : Draw) (pem : Bytes), L.Faithful ∧
      c.opts.trustDomain = "a..b" ∧ c.issueSpokeFromCSR L d [] "prod" = .ok (pem, none) ∧
      c.identityFromCert none = .error .nilCertificate := by
  refine ⟨prodLibrary "a..b", prodAuthority "a..b" (by decide),
    { now := 400000000000, serial := .ok ⟨6, by decide⟩, random := [] }, [],
    shelf_faithful _ _, rfl, ?_, rfl⟩
  decide +kernel

end prom_fleet.ca
