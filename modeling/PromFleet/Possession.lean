-- The two places that ask a spoke for a proof of possession, the tunnel handshake and the
-- renewal of a certificate, and what a signature that one of them accepts is worth elsewhere.
import PromFleet.CertProof
import PromFleet.SpokeCA
import PromFleet.GoTime

namespace prom_fleet.possession

open x509 certproof ca tunnel

variable {Key : Type}

/-- The certificates of a chain, or the number of the first one that does not parse and why. -/
def parseChain (L : Library Key) : Nat → List Bytes → Except (Nat × String) (List Certificate)
  | _, [] => .ok []
  | i, der :: rest => do
    let cert ← (L.parseCertificate der).mapError fun err => (i, err)
    let certs ← parseChain L (i + 1) rest
    return cert :: certs

/-! ## The tunnel handshake -/

namespace wstun

def protocolVersion : String := "v1"

def compatibleVersion (peer : String) : Bool := decide (peer = protocolVersion)

/-- `clientAuth`, without the version of the agent, which no check reads. -/
structure ClientAuth where
  chain : List Bytes
  signature : Bytes
  clusterID : String
  instanceID : String
  protocolVersion : String

inductive AuthErr where
  | handshakeFailed (err : String)
  | protocolVersion (peer : String)
  | noCertificate
  | unparseable (i : Nat) (err : String)
  | untrusted (err : String)
  | instanceID (err : String)
  | revoked (serial : String)
  | proof (err : certproof.Err)
  | clusterMismatch (reported certificate : String)
  deriving DecidableEq

def validInstanceID (v : String) : Except String Unit := do
  ensure (v.utf8ByteSize ≤ 128) "longer than 128 bytes"
  ensure (v.toList.all (fun r => decide (0x21 ≤ r.toNat ∧ r.toNat ≤ 0x7e)) = true)
    "contains a byte outside printable ASCII"

/-- The hooks of `ServerConfig`. -/
structure ServerConfig where
  verify : List Certificate → Except String Identity
  isRevoked : Option (String → Bool)

/-- What happens on the connection: the deadline is set, the nonce is drawn, the hello is
written, and the answer is read. -/
structure Exchange where
  deadline : Except String Unit
  nonce : Except String Bytes
  hello : Except String Unit
  auth : Except AuthErr ClientAuth

/-- The identity with what the hook has left empty. -/
def completed (id : Identity) (leaf : Certificate) : Identity :=
  { id with
    certSerial := if id.certSerial = "" then serialHex leaf.serialNumber else id.certSerial
    certNotAfter := if isZero id.certNotAfter then leaf.notAfter else id.certNotAfter }

/-- The identity with the instance that the spoke tells, if it tells one. -/
def withInstance (id : Identity) (instanceID : String) : Except AuthErr Identity :=
  if instanceID = "" then .ok id
  else do
    (validInstanceID instanceID).mapError .instanceID
    return { id with instanceID := instanceID }

def authenticate (L : Library Key) (C : Crypto) (cfg : ServerConfig) (x : Exchange)
    (remote : String) : Except AuthErr Identity := do
  x.deadline.mapError .handshakeFailed
  let nonce ← x.nonce.mapError .handshakeFailed
  x.hello.mapError .handshakeFailed
  let auth ← x.auth
  ensure (compatibleVersion auth.protocolVersion = true) (.protocolVersion auth.protocolVersion)
  match ← (parseChain L 0 auth.chain).mapError (fun e => AuthErr.unparseable e.1 e.2) with
  | [] => throw .noCertificate
  | leaf :: rest =>
    let id ← (cfg.verify (leaf :: rest)).mapError .untrusted
    let id ← withInstance (completed id leaf) auth.instanceID
    ensure (cfg.isRevoked.any (fun revoked => revoked id.certSerial) = false)
      (.revoked id.certSerial)
    (verify C (some leaf) auth.signature nonce wstun.protocolVersion auth.clusterID []).mapError
      .proof
    ensure (auth.clusterID = id.clusterID) (.clusterMismatch auth.clusterID id.clusterID)
    return { id with remoteAddr := remote }

end wstun

/-! ## Renewal -/

namespace hubapi

structure RenewRequest where
  csr : String
  chain : List Bytes
  signature : Bytes
  nonce : Bytes

inductive RenewAnswer where
  | unavailable
  | badBody
  | challengeRefused
  | noChain
  | chainTooLong
  | chainEntry (i : Nat)
  | certificateRefused
  | listFailed
  | revoked
  | csrMissing
  | csrTooLong
  | csrNotBase64
  | unproven
  deriving DecidableEq

/-- Functions on texts from the standard library. -/
structure Texts where
  trimSpace : String → String
  decodeStd : String → Except String Bytes
  decodeRawStd : String → Except String Bytes

/-- What a server is built with. `sum` is the keyed hash of its pepper. -/
structure Server (Key : Type) where
  ca : CA Key
  renewGrace : Int
  sum : Bytes → Bytes

/-- One call: the request, and what the call finds outside. -/
structure Call where
  draining : Bool
  body : Except String RenewRequest
  now : Int
  caNow : Int × Int
  revoked : Except String (List String)

/-- `binary.BigEndian.Uint64`. -/
def uint64 (b : Bytes) : Nat := b.foldl (fun n x => n * 256 + x.toNat) 0

def renewNonceDomain : String := "prometheus-mcp-fleet/renew-nonce/v1\x00"

/-- `verifyRenewNonce`: 16 random bytes, 8 bytes of expiry and a tag of 32 bytes. -/
def verifyRenewNonce (sum : Bytes → Bytes) (nonce : Bytes) (now : Int) : Bool :=
  let body := nonce.take 24
  let expiresAt := gotime.timeUnix (gotime.wrap64 (uint64 (body.drop 16))) 0
  decide (nonce.length = 56) && decide (nonce.drop 24 = sum (bytesOf renewNonceDomain ++ body)) &&
    decide (now ≤ expiresAt)

def readChain (L : Library Key) (der : List Bytes) : Except RenewAnswer (List Certificate) := do
  ensure (der ≠ []) .noChain
  ensure (der.length ≤ 8) .chainTooLong
  (parseChain L 0 der).mapError fun e => .chainEntry e.1

def decodeCSR (T : Texts) (s : String) : Except String Bytes :=
  match T.decodeStd (T.trimSpace s) with
  | .ok der => .ok der
  | .error _ => T.decodeRawStd (T.trimSpace s)

def decodeCSRField (T : Texts) (csr : String) : Except RenewAnswer Bytes := do
  ensure (csr ≠ "") .csrMissing
  ensure (csr.utf8ByteSize ≤ 32768) .csrTooLong
  (decodeCSR T csr).mapError fun _ => .csrNotBase64

/-- A request whose proof holds. -/
structure Proven where
  identity : Identity
  expired : Bool
  csrDER : Bytes

/-- `handleRenew` up to the issue of the certificate. -/
def proveRenewal (L : Library Key) (C : Crypto) (T : Texts) (s : Server Key) (call : Call) :
    Except RenewAnswer Proven := do
  ensure (call.draining = false) .unavailable
  let req ← call.body.mapError fun _ => RenewAnswer.badBody
  ensure (verifyRenewNonce s.sum req.nonce call.now = true) .challengeRefused
  match ← readChain L req.chain with
  | [] => throw .noChain
  | leaf :: rest =>
    let (identity, expired) ←
      (s.ca.verifyChainAllowingExpiry L call.caNow.1 call.caNow.2 s.renewGrace leaf rest).mapError
        fun _ => RenewAnswer.certificateRefused
    let revoked ← call.revoked.mapError fun _ => RenewAnswer.listFailed
    ensure (identity.certSerial ∉ revoked) .revoked
    let csrDER ← decodeCSRField T req.csr
    (verify C (some leaf) req.signature req.nonce renewProtocolVersion identity.clusterID
      [csrBinding C csrDER]).mapError fun _ => RenewAnswer.unproven
    return { identity := identity, expired := expired, csrDER := csrDER }

end hubapi

/-! ## What has been accepted -/

variable {L : Library Key} {C : Crypto} {T : hubapi.Texts}

def LeafKey (L : Library Key) (chain : List Bytes) (key : PublicKey) : Prop :=
  ∃ der rest leaf, chain = der :: rest ∧ L.parseCertificate der = .ok leaf ∧ leaf.publicKey = key

variable {chain : List Bytes}

theorem parseChain_head {i : Nat} {leaf : Certificate} {rest : List Certificate}
    (h : parseChain L i chain = .ok (leaf :: rest)) : LeafKey L chain leaf.publicKey := by
  cases chain with
  | nil => cases h
  | cons der ders =>
    obtain ⟨cert, hcert, h⟩ := bind_eq_ok.mp h
    obtain ⟨certs, -, h⟩ := bind_eq_ok.mp h
    cases h
    exact ⟨der, ders, leaf, rfl, mapError_eq_ok.mp hcert, rfl⟩

variable {key : PublicKey}

theorem LeafKey.unique {key' : PublicKey} (h : LeafKey L chain key) (h' : LeafKey L chain key') :
    key = key' := by
  obtain ⟨der, rest, leaf, hchain, hleaf, hkey⟩ := h
  obtain ⟨der', rest', leaf', hchain', hleaf', hkey'⟩ := h'
  rw [hchain] at hchain'
  cases hchain'
  rw [hleaf] at hleaf'
  cases hleaf'
  rw [← hkey, ← hkey']

/-- Some handshake accepts the signature: one with this nonce, by a spoke that presents a
certificate for this key, and for this cluster. -/
def HandshakeAccepts (L : Library Key) (C : Crypto) (nonce : Bytes) (clusterID : String)
    (key : PublicKey) (sig : Bytes) : Prop :=
  ∃ cfg x remote auth id, x.nonce = .ok nonce ∧ x.auth = .ok auth ∧ auth.signature = sig ∧
    LeafKey L auth.chain key ∧ wstun.authenticate L C cfg x remote = .ok id ∧
    id.clusterID = clusterID

/-- Some renewal accepts the signature: one with this nonce and this signing request, with a
certificate for this key, and for this cluster. -/
def RenewalAccepts (L : Library Key) (C : Crypto) (T : hubapi.Texts) (nonce : Bytes)
    (clusterID : String) (csrDER : Bytes) (key : PublicKey) (sig : Bytes) : Prop :=
  ∃ s call req p, call.body = .ok req ∧ req.nonce = nonce ∧ req.signature = sig ∧
    LeafKey L req.chain key ∧ hubapi.proveRenewal L C T s call = .ok p ∧
    p.identity.clusterID = clusterID ∧ p.csrDER = csrDER

variable {clusterID : String} {nonce sig : Bytes}

theorem HandshakeAccepts.transcript (h : HandshakeAccepts L C nonce clusterID key sig) :
    ∃ t, certproof.transcript nonce (bytesOf wstun.protocolVersion) (bytesOf clusterID) [] =
      .ok t ∧ C.Verifies key t sig := by
  obtain ⟨cfg, x, remote, auth, id, hnonce, hauth, hsig, hkey, h, hid⟩ := h
  obtain ⟨_, -, h⟩ := bind_eq_ok.mp h
  obtain ⟨nonce', hnonce', h⟩ := bind_eq_ok.mp h
  rw [hnonce] at hnonce'
  cases hnonce'
  obtain ⟨_, -, h⟩ := bind_eq_ok.mp h
  obtain ⟨auth', hauth', h⟩ := bind_eq_ok.mp h
  rw [hauth] at hauth'
  cases hauth'
  obtain ⟨_, -, h⟩ := bind_eq_ok.mp h
  obtain ⟨chain, hchain, h⟩ := bind_eq_ok.mp h
  cases chain with
  | nil => cases h
  | cons leaf rest =>
    have hleaf := parseChain_head (mapError_eq_ok.mp hchain)
    obtain ⟨_, -, h⟩ := bind_eq_ok.mp h
    obtain ⟨id', -, h⟩ := bind_eq_ok.mp h
    obtain ⟨_, -, h⟩ := bind_eq_ok.mp h
    obtain ⟨_, hproof, h⟩ := bind_eq_ok.mp h
    obtain ⟨_, hsame, h⟩ := bind_eq_ok.mp h
    cases h
    -- the cluster ID in the transcript is the one of the certificate
    have hcluster : auth.clusterID = clusterID := (ensure_eq_ok.mp hsame).trans hid
    rw [← hcluster, ← hsig, ← hleaf.unique hkey]
    exact verify_ok (mapError_eq_ok.mp hproof)

theorem RenewalAccepts.transcript {csrDER : Bytes}
    (h : RenewalAccepts L C T nonce clusterID csrDER key sig) :
    ∃ t, transcript nonce (bytesOf renewProtocolVersion) (bytesOf clusterID)
      [csrBinding C csrDER] = .ok t ∧ C.Verifies key t sig := by
  obtain ⟨s, call, req, p, hbody, hnonce, hsig, hkey, h, hid, hcsr⟩ := h
  obtain ⟨_, -, h⟩ := bind_eq_ok.mp h
  obtain ⟨req', hbody', h⟩ := bind_eq_ok.mp h
  rw [hbody] at hbody'
  cases hbody'
  obtain ⟨_, -, h⟩ := bind_eq_ok.mp h
  obtain ⟨chain, hchain, h⟩ := bind_eq_ok.mp h
  cases chain with
  | nil => cases h
  | cons leaf rest =>
    obtain ⟨_, -, hchain⟩ := bind_eq_ok.mp hchain
    obtain ⟨_, -, hchain⟩ := bind_eq_ok.mp hchain
    have hleaf := parseChain_head (mapError_eq_ok.mp hchain)
    obtain ⟨⟨identity, expired⟩, -, h⟩ := bind_eq_ok.mp h
    obtain ⟨_, -, h⟩ := bind_eq_ok.mp h
    obtain ⟨_, -, h⟩ := bind_eq_ok.mp h
    obtain ⟨_, -, h⟩ := bind_eq_ok.mp h
    obtain ⟨_, hproof, h⟩ := bind_eq_ok.mp h
    cases h
    rw [← hnonce, ← hsig, ← hid, ← hcsr, ← hleaf.unique hkey]
    exact verify_ok (mapError_eq_ok.mp hproof)

/-! ## The exchanges -/

/-- Two inputs with one digest. -/
def Collides (C : Crypto) (x y : Bytes) : Prop := x ≠ y ∧ C.sha256 x = C.sha256 y

/-- A proof of possession holds in one exchange only, if a signature verifies for at most one
transcript under keys that are `linked`: let it relate every two keys, or only a key with itself.
Another signing request with the same digest is a collision of SHA-256. -/
theorem proofs_stay_in_their_exchange (linked : PublicKey → PublicKey → Prop)
    (hsig : ∀ key key' t t' sig, linked key key' → C.Verifies key t sig →
      C.Verifies key' t' sig → t = t') :
    (∀ nonce version clusterID bindings nonce' version' clusterID' bindings',
      (∀ f ∈ nonce :: version :: clusterID :: bindings, f.length ≤ 65535) →
      (∀ f ∈ nonce' :: version' :: clusterID' :: bindings', f.length ≤ 65535) →
      ∃ t t', transcript nonce version clusterID bindings = .ok t ∧
        transcript nonce' version' clusterID' bindings' = .ok t' ∧
        (t = t' → nonce = nonce' ∧ version = version' ∧ clusterID = clusterID' ∧
          bindings = bindings')) ∧
    (∀ nonce clusterID key key' sig, linked key key' →
      HandshakeAccepts L C nonce clusterID key sig →
      (∀ nonce' clusterID' csrDER,
        ¬RenewalAccepts L C T nonce' clusterID' csrDER key' sig) ∧
      ∀ nonce' clusterID', HandshakeAccepts L C nonce' clusterID' key' sig →
        nonce' = nonce ∧ clusterID' = clusterID) ∧
    (∀ nonce clusterID csrDER key key' sig, linked key key' →
      RenewalAccepts L C T nonce clusterID csrDER key sig →
      ∀ nonce' clusterID' csrDER', RenewalAccepts L C T nonce' clusterID' csrDER' key' sig →
        nonce' = nonce ∧ clusterID' = clusterID ∧
          (csrDER' = csrDER ∨ Collides C csrDER' csrDER)) := by
  refine ⟨?_, ?_, ?_⟩
  · intro nonce version clusterID bindings nonce' version' clusterID' bindings' hsize hsize'
    have hle : ∀ f : Bytes, f.length ≤ 65535 → f.length ≤ maxFieldBytes := by
      intro f hf
      unfold maxFieldBytes
      omega
    refine ⟨_, _, transcript_eq_ok.mpr ⟨fun f hf => hle f (hsize f hf), rfl⟩,
      transcript_eq_ok.mpr ⟨fun f hf => hle f (hsize' f hf), rfl⟩, ?_⟩
    intro heq
    apply transcript_inj (transcript_eq_ok.mpr ⟨fun f hf => hle f (hsize f hf), rfl⟩)
    rw [heq]
    exact transcript_eq_ok.mpr ⟨fun f hf => hle f (hsize' f hf), rfl⟩
  · intro nonce clusterID key key' sig hlinked h
    obtain ⟨t, ht, hv⟩ := h.transcript
    constructor
    · intro nonce' clusterID' csrDER h'
      obtain ⟨t', ht', hv'⟩ := h'.transcript
      rw [← hsig key key' t t' sig hlinked hv hv'] at ht'
      -- the versions of the two exchanges differ
      obtain ⟨-, hversion, -, -⟩ := transcript_inj ht ht'
      exact absurd (bytesOf_inj hversion) (by decide)
    · intro nonce' clusterID' h'
      obtain ⟨t', ht', hv'⟩ := h'.transcript
      rw [← hsig key key' t t' sig hlinked hv hv'] at ht'
      obtain ⟨hnonce, -, hcluster, -⟩ := transcript_inj ht ht'
      exact ⟨hnonce.symm, (bytesOf_inj hcluster).symm⟩
  · intro nonce clusterID csrDER key key' sig hlinked h nonce' clusterID' csrDER' h'
    obtain ⟨t, ht, hv⟩ := h.transcript
    obtain ⟨t', ht', hv'⟩ := h'.transcript
    rw [← hsig key key' t t' sig hlinked hv hv'] at ht'
    obtain ⟨hnonce, -, hcluster, hbindings⟩ := transcript_inj ht ht'
    refine ⟨hnonce.symm, (bytesOf_inj hcluster).symm, ?_⟩
    have hdigest : C.sha256 csrDER' = C.sha256 csrDER := (List.cons.inj hbindings).1.symm
    by_cases hcsr : csrDER' = csrDER
    · exact .inl hcsr
    · exact .inr ⟨hcsr, hdigest⟩

/-- Primitives for a run: the digest is the text, and the signature is the digest. -/
def echo : Crypto where
  sha256 := id
  verifyASN1 _ _ _ digest sig := decide (digest = sig)
  verifyPKCS1v15 _ _ _ _ := .error "not an RSA signature"

theorem echo_verifies {t : Bytes} (h : echo.Verifies key t sig) : t = sig := by
  unfold Crypto.Verifies Crypto.checkDigest at h
  split at h
  · have hsame := ensure_eq_ok.mp h
    simpa [echo] using hsame
  · cases h
  · cases h

/-- A signature for the nonce `[1]` and the cluster `prod` is accepted there, and neither with
the nonce `[2]` nor by a renewal. -/
theorem handshake_proof_for_prod :
    ∃ (key : PublicKey) (sig : Bytes) (L : Library Unit) (T : hubapi.Texts),
      HandshakeAccepts L echo [1] "prod" key sig ∧
      ¬HandshakeAccepts L echo [2] "prod" key sig ∧
      ∀ nonce clusterID csrDER, ¬RenewalAccepts L echo T nonce clusterID csrDER key sig := by
  let key : PublicKey := .ecdsa "P-256" 1 2
  let sig : Bytes := (transcript [1] (bytesOf "v1") (bytesOf "prod") []).toOption.getD []
  let L : Library Unit := shelf [] [{ publicKey := key }]
  let T : hubapi.Texts :=
    { trimSpace := id, decodeStd := fun _ => .ok [], decodeRawStd := fun _ => .ok [] }
  let id : Identity := { clusterID := "prod", certSerial := "7", certNotAfter := 5 }
  let auth : wstun.ClientAuth :=
    { chain := [[]], signature := sig, clusterID := "prod", instanceID := "pod-0"
      protocolVersion := "v1" }
  have haccepts : HandshakeAccepts L echo [1] "prod" key sig := by
    refine ⟨{ verify := fun _ => .ok id, isRevoked := none },
      { deadline := .ok (), nonce := .ok [1], hello := .ok (), auth := .ok auth }, "10.0.0.1",
      auth, { id with instanceID := "pod-0", remoteAddr := "10.0.0.1" }, rfl, rfl, rfl, ?_, ?_,
      rfl⟩
    · exact ⟨[], [], { publicKey := key }, rfl, by decide +kernel, rfl⟩
    · decide +kernel
  obtain ⟨-, hhandshake, -⟩ := proofs_stay_in_their_exchange
    (fun _ _ => True) (fun _ _ _ _ _ _ h h' => (echo_verifies h).trans (echo_verifies h').symm)
  obtain ⟨hrenewal, hother⟩ := hhandshake [1] "prod" key key sig trivial haccepts
  refine ⟨key, sig, L, T, haccepts, ?_, hrenewal⟩
  intro h
  exact absurd (hother [2] "prod" h).1 (by decide)

end prom_fleet.possession
