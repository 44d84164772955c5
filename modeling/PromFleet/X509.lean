-- What the hub takes from `crypto/x509` and `net/url`: the values that go in and out, and the
-- library itself as a value, with what the hub relies on when it reads back a certificate
-- that it has just made.
import PromFleet.Identity

namespace prom_fleet.x509

/-! ## Values -/

/-- `url.URL`. The password of the user part is of no interest here. -/
structure URL where
  scheme : String
  opaquePart : String := ""
  user : Option String := none
  host : String
  path : String
  rawQuery : String := ""
  fragment : String := ""
  deriving DecidableEq

/-- A public key as Go's type switch sees it. A curve is known by its name. -/
inductive PublicKey where
  | ecdsa (curve : String) (x y : Nat)
  | rsa (n e : Nat)
  | other (type : String)
  deriving DecidableEq

inductive KeyUsage where
  | digitalSignature
  | certSign
  | crlSign
  deriving DecidableEq

inductive ExtKeyUsage where
  | clientAuth
  | serverAuth
  | other (oid : String)
  deriving DecidableEq

/-- `pkix.Name`: the common name, and the other attributes by their names. -/
structure Name where
  commonName : String := ""
  others : List (String × String) := []
  deriving DecidableEq

/-- `x509.Certificate`, parsed or as a template. The subject alternative names other than
URIs and the extensions that a template adds stand as texts. -/
structure Certificate where
  subject : Name := {}
  uris : List URL := []
  otherNames : List String := []
  extraExtensions : List String := []
  keyUsage : List KeyUsage := []
  extKeyUsage : List ExtKeyUsage := []
  basicConstraintsValid : Bool := false
  isCA : Bool := false
  serialNumber : Int := 0
  notBefore : Int := 0
  notAfter : Int := 0
  publicKey : PublicKey := .other "nil"
  deriving DecidableEq

structure CertificateRequest where
  subject : Name := {}
  uris : List URL := []
  otherNames : List String := []
  extensions : List String := []
  attributes : List String := []
  publicKey : PublicKey
  signature : Bytes := []
  deriving DecidableEq

structure VerifyOptions where
  roots : List Certificate
  intermediates : List Certificate
  currentTime : Int
  keyUsages : List ExtKeyUsage

/-! ## The library -/

/-- The functions of the library. The first argument of `createCertificate` is what it reads
from the random source. -/
structure Library (Key : Type) where
  parseCertificateRequest : Bytes → Except String CertificateRequest
  checkSignature : CertificateRequest → Except String Unit
  createCertificate : Bytes → (template parent : Certificate) → PublicKey → Key →
    Except String Bytes
  parseCertificate : Bytes → Except String Certificate
  verify : Certificate → VerifyOptions → Except String Unit
  encodePEM : Bytes → Bytes

/-- A character that stands for itself in every part of a URL. -/
def plainChar (c : Char) : Bool :=
  (decide ('a' ≤ c) && decide (c ≤ 'z')) || c.isDigit || decide (c = '-') || decide (c = '.')

/-- The URL is a scheme, a host and an absolute path, and is its own escaped form. -/
structure URL.Plain (u : URL) : Prop where
  scheme : u.scheme ≠ "" ∧ u.scheme.toList.all Char.isLower = true
  host : u.host ≠ "" ∧ u.host.toList.all plainChar = true
  path : ∃ rest, u.path.toList = '/' :: rest ∧ rest.all (fun c => plainChar c || c = '/') = true
  bare : u.opaquePart = "" ∧ u.user = none ∧ u.rawQuery = "" ∧ u.fragment = ""

/-- No label of the domain name is empty. -/
def labelled (host : String) : Bool := (host.toList.splitOn '.').all fun label => !label.isEmpty

/-- A template with nothing in it that its encoding could alter or that a reader could refuse,
other than the labels of the hosts in its URLs. -/
structure Certificate.Simple (t : Certificate) : Prop where
  uris : ∀ u ∈ t.uris, u.Plain
  names : t.otherNames = [] ∧ t.extraExtensions = [] ∧ t.subject.others = []
  commonName : t.subject.commonName.toList.all (fun c => plainChar c || c = ':') = true
  serial : 0 < t.serialNumber ∧ t.serialNumber ≤ 2 ^ 128
  constraints : t.basicConstraintsValid = true

/-- A certificate tells times to the second. -/
def wholeSeconds (t : Int) : Int := t / 1000000000 * 1000000000

theorem wholeSeconds_le (t : Int) : wholeSeconds t ≤ t := by
  unfold wholeSeconds
  omega

/-- What `sign` relies on. A certificate that reads back has the fields of its template, and
it does read back exactly if no host has an empty label: the host of a URL must be a domain
name. -/
structure Library.Faithful {Key : Type} (L : Library Key) : Prop where
  fields : ∀ random t parent pub key der leaf, t.Simple →
    L.createCertificate random t parent pub key = .ok der →
    L.parseCertificate der = .ok leaf →
    leaf.uris = t.uris ∧ leaf.serialNumber = t.serialNumber ∧
      leaf.notAfter = wholeSeconds t.notAfter ∧ leaf.isCA = t.isCA ∧ leaf.publicKey = pub
  reads : ∀ random t parent pub key der, t.Simple →
    L.createCertificate random t parent pub key = .ok der →
    ((∃ leaf, L.parseCertificate der = .ok leaf) ↔ ∀ u ∈ t.uris, labelled u.host = true)

/-! ## A small library -/

/-- What a reader makes of a template. -/
def Certificate.encoded (t : Certificate) (pub : PublicKey) : Certificate :=
  { t with
    notBefore := wholeSeconds t.notBefore
    notAfter := wholeSeconds t.notAfter
    publicKey := pub }

/-- The check of the reader on the hosts of a certificate's URLs. -/
def Certificate.readable (c : Certificate) : Except String Certificate :=
  if c.uris.all fun u => labelled u.host then .ok c else .error "cannot parse URI: invalid domain"

variable (requests : List CertificateRequest)

/-- A library that knows these requests and these certificates. The encoding of each is its
place in the list. -/
def shelf (certs : List Certificate) : Library Unit where
  parseCertificateRequest der := (requests[der.length]?).elim (.error "malformed") .ok
  checkSignature _ := .ok ()
  createCertificate _ t _ pub _ :=
    match certs.idxOf? (t.encoded pub) with
    | some i => .ok (List.replicate i 0)
    | none => .error "unknown template"
  parseCertificate der := (certs[der.length]?).elim (.error "malformed") Certificate.readable
  verify _ _ := .ok ()
  encodePEM der := der

theorem shelf_create {requests : List CertificateRequest} {certs : List Certificate}
    {random : Bytes} {t parent : Certificate} {pub : PublicKey} {key : Unit} {der : Bytes}
    (h : (shelf requests certs).createCertificate random t parent pub key = .ok der) :
    (shelf requests certs).parseCertificate der = (t.encoded pub).readable := by
  simp only [shelf] at h
  split at h
  · rename_i i hi
    obtain ⟨hlt, heq, _⟩ := List.idxOf?_eq_some_iff.mp hi
    cases h
    simp only [shelf, List.length_replicate, List.getElem?_eq_getElem hlt, heq, Option.elim_some]
  · cases h

theorem shelf_faithful (certs : List Certificate) :
    (shelf requests certs).Faithful where
  fields random t parent pub key der leaf _ hcreate hparse := by
    rw [shelf_create hcreate, Certificate.readable] at hparse
    split at hparse
    · cases hparse
      exact ⟨rfl, rfl, rfl, rfl, rfl⟩
    · cases hparse
  reads random t parent pub key der _ hcreate := by
    rw [shelf_create hcreate, Certificate.readable, ← List.all_eq_true]
    split
    · rename_i hhosts
      exact ⟨fun _ => hhosts, fun _ => ⟨_, rfl⟩⟩
    · rename_i hhosts
      exact ⟨nofun, fun h => absurd h hhosts⟩

end prom_fleet.x509
