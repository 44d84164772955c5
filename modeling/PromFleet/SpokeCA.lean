-- The certificate authority of the hub: the grammar of cluster IDs and trust domains, the
-- issue of a spoke certificate for a signing request, the identity that a certificate proves,
-- and the two checks of a presented chain.
import PromFleet.X509
import PromFleet.Revocation
import PromFleet.Fallible

namespace prom_fleet

structure tunnel.Identity where
  clusterID : String
  certSerial : String
  certNotAfter : Int
  remoteAddr : String := ""
  instanceID : String := ""
  deriving DecidableEq

namespace ca

open x509

variable {Key : Type}

/-! ## Names -/

def isAlnum (c : Char) : Bool := (decide ('a' ≤ c) && decide (c ≤ 'z')) || c.isDigit

/-- The grammar `^[a-z0-9](M{0,n}[a-z0-9])?$`, where `M` are the characters of `middle`. -/
def nameMatches (middle : Char → Bool) (n : Nat) (s : String) : Bool :=
  match s.toList with
  | [] => false
  | [c] => isAlnum c
  | c :: d :: rest =>
    isAlnum c && decide (rest.length ≤ n) && (d :: rest).dropLast.all middle &&
      isAlnum ((d :: rest).getLast (List.cons_ne_nil d rest))

def validClusterID (id : String) : Bool := nameMatches (fun c => isAlnum c || c = '-') 61 id

/-- `trustDomainRE.MatchString`. -/
def trustDomainMatches (s : String) : Bool :=
  nameMatches (fun c => isAlnum c || c = '-' || c = '.') 251 s

/-! ## Errors -/

/-- An error with the values that its text shows. -/
inductive Err where
  | invalidClusterID (id : String)
  | csrParse (err : String)
  | csrSignature (err : String)
  | csrCurve (name : String)
  | csrBits (bits : Nat)
  | csrKeyType (type : String)
  | caExpired (at_ : Int)
  | serial (err : String)
  | sign (err : String)
  | nilCertificate
  | uriCount (n : Nat)
  | uriScheme (scheme : String)
  | uriExtras
  | uriHost (host want : String)
  | uriPath (path : String)
  | uriClusterID (id : String)
  | noChain
  | verify (err : String)
  | graceExhausted (expired grace : Int)
  deriving DecidableEq

/-! ## The authority -/

structure Options where
  trustDomain : String
  spokeCertTTL : Int
  caTTL : Int
  deriving DecidableEq

def Options.withDefaults (o : Options) : Options where
  trustDomain := if o.trustDomain = "" then "fleet.local" else o.trustDomain
  spokeCertTTL := if o.spokeCertTTL = 0 then 14 * 24 * 3600000000000 else o.spokeCertTTL
  caTTL := if o.caTTL = 0 then 10 * 365 * 24 * 3600000000000 else o.caTTL

/-- `Options.validate` finds nothing wrong. -/
def Options.valid (o : Options) : Bool :=
  trustDomainMatches o.trustDomain && decide (0 < o.spokeCertTTL) && decide (0 < o.caTTL)

/-- The signer and the roots that are trusted beside it. -/
structure Material (Key : Type) where
  cert : Certificate
  key : Key
  roots : List Certificate

/-- `CA`. It is built from options that `validate` has passed. -/
structure CA (Key : Type) where
  opts : Options
  material : Material Key
  valid : opts.valid = true

/-- What a call reads from outside: the clock, the draw of `caRandomInt` below 2^128 - 1, and
the bytes that the signature takes from the random source. -/
structure Draw where
  now : Int
  serial : Except String (Fin (2 ^ 128 - 1))
  random : Bytes

/-! ## Issue -/

def clockSkew : Int := 300000000000

variable (c : CA Key)

def CA.spokeURI (clusterID : String) : URL where
  scheme := "pmf"
  host := c.opts.trustDomain
  path := "/spoke/" ++ clusterID

/-- `big.Int.BitLen`. -/
def bitLen (n : Nat) : Nat := if n = 0 then 0 else n.log2 + 1

def checkCSRPublicKey : PublicKey → Except Err Unit
  | .ecdsa curve _ _ => if curve = "P-256" then .ok () else .error (.csrCurve curve)
  | .rsa n _ =>
    if bitLen n < 2048 ∨ 8192 < bitLen n then .error (.csrBits (bitLen n)) else .ok ()
  | .other type => .error (.csrKeyType type)

/-- The template of `IssueSpokeFromCSR`. -/
def CA.spokeTemplate (clusterID : String) : Certificate where
  subject := { commonName := "spoke:" ++ clusterID }
  uris := [c.spokeURI clusterID]
  keyUsage := [.digitalSignature]
  extKeyUsage := [.clientAuth]
  basicConstraintsValid := true
  isCA := false

/-- What `sign` passes to `x509.CreateCertificate`. -/
structure SignCall (Key : Type) where
  template : Certificate
  parent : Certificate
  pub : PublicKey
  key : Key

/-- `sign` up to the signature. -/
def CA.fill (d : Draw) (tmpl : Certificate) (pub : PublicKey) (ttl : Int) :
    Except Err (SignCall Key) := do
  let m := c.material
  ensure (d.now < m.cert.notAfter) (.caExpired m.cert.notAfter)
  let n ← d.serial.mapError Err.serial
  let notAfter := d.now + ttl
  return {
    template := { tmpl with
      serialNumber := (n.val : Int) + 1
      notBefore := d.now - clockSkew
      notAfter := if m.cert.notAfter < notAfter then m.cert.notAfter else notAfter }
    parent := m.cert
    pub := pub
    key := m.key }

variable (L : Library Key)

/-- `sign`: the encoding, and the certificate that is read back from it. An error of the
reader is dropped, and the certificate is nil then. -/
def CA.sign (d : Draw) (tmpl : Certificate) (pub : PublicKey)
    (ttl : Int) : Except Err (Bytes × Option Certificate) := do
  let call ← c.fill d tmpl pub ttl
  let der ← (L.createCertificate d.random call.template call.parent call.pub call.key).mapError
    Err.sign
  return (der, (L.parseCertificate der).toOption)

/-- `IssueSpokeFromCSR` up to the template: the checks of the cluster ID and the request. -/
def checkedRequest (csrDER : Bytes) (clusterID : String) : Except Err CertificateRequest := do
  ensure (validClusterID clusterID = true) (.invalidClusterID clusterID)
  let csr ← (L.parseCertificateRequest csrDER).mapError Err.csrParse
  (L.checkSignature csr).mapError Err.csrSignature
  checkCSRPublicKey csr.publicKey
  return csr

/-- What the call of `IssueSpokeFromCSR` has signed, if it gets that far. -/
def CA.signCall (d : Draw) (csrDER : Bytes) (clusterID : String) : Except Err (SignCall Key) := do
  let csr ← checkedRequest L csrDER clusterID
  c.fill d (c.spokeTemplate clusterID) csr.publicKey c.opts.spokeCertTTL

/-- `CA.IssueSpokeFromCSR`: the certificate in PEM and as it is read back. -/
def CA.issueSpokeFromCSR (d : Draw) (csrDER : Bytes)
    (clusterID : String) : Except Err (Bytes × Option Certificate) := do
  let csr ← checkedRequest L csrDER clusterID
  let (der, leaf) ← c.sign L d (c.spokeTemplate clusterID) csr.publicKey c.opts.spokeCertTTL
  return (L.encodePEM der, leaf)

/-! ## Identity -/

def serialHex (n : Int) : String := revocation.serialHex n.natAbs

/-- `strings.CutPrefix`. -/
def cutPrefix (s start : String) : Option String :=
  if start.toList.isPrefixOf s.toList then some (String.ofList (s.toList.drop start.length))
  else none

def CA.identityFromCert (cert : Option Certificate) : Except Err tunnel.Identity :=
  match cert with
  | none => .error .nilCertificate
  | some cert =>
    match cert.uris with
    | [u] =>
      if u.scheme ≠ "pmf" then .error (.uriScheme u.scheme)
      else if u.user.isSome || u.rawQuery ≠ "" || u.fragment ≠ "" || u.opaquePart ≠ "" then
        .error .uriExtras
      else if u.host ≠ c.opts.trustDomain then .error (.uriHost u.host c.opts.trustDomain)
      else
        match cutPrefix u.path "/spoke/" with
        | none => .error (.uriPath u.path)
        | some id =>
          if !validClusterID id then .error (.uriClusterID id)
          else
            .ok { clusterID := id, certSerial := serialHex cert.serialNumber
                  certNotAfter := cert.notAfter }
    | uris => .error (.uriCount uris.length)

def CA.pool : List Certificate := c.material.roots

/-- `leaf.Verify` with the pool of the authority, as of `time`. -/
def CA.verifyLeaf (leaf : Certificate) (rest : List Certificate) (time : Int) : Except Err Unit :=
  (L.verify leaf { roots := c.pool, intermediates := rest, currentTime := time,
                   keyUsages := [.clientAuth] }).mapError Err.verify

def CA.verifyChain (now : Int) :
    List Certificate → Except Err tunnel.Identity
  | [] => .error .noChain
  | leaf :: rest => do
    c.verifyLeaf L leaf rest now
    c.identityFromCert (some leaf)

/-- `CA.VerifyChainAllowingExpiry`, on a chain that the caller has found not to be empty. The
clock is read by `VerifyChain` first, and once more if that fails. -/
def CA.verifyChainAllowingExpiry (first now grace : Int)
    (leaf : Certificate) (rest : List Certificate) : Except Err (tunnel.Identity × Bool) :=
  match c.verifyChain L first (leaf :: rest) with
  | .ok id => .ok (id, false)
  | .error err => do
    ensure (0 < grace ∧ leaf.notAfter < now) err
    ensure (now ≤ leaf.notAfter + grace) (.graceExhausted leaf.notAfter grace)
    c.verifyLeaf L leaf rest leaf.notAfter
    let id ← c.identityFromCert (some leaf)
    return (id, true)

end ca

end prom_fleet
