-- The proof of possession: the transcript that a spoke signs and the hub checks, and the fact
-- that a transcript has one reading only.
import PromFleet.Framing
import PromFleet.X509
import PromFleet.Fallible

namespace prom_fleet.certproof

open framing x509 List

/-! ## The transcript -/

def bytesOf (s : String) : Bytes := s.toByteArray.data.toList

theorem bytesOf_inj {s t : String} (h : bytesOf s = bytesOf t) : s = t := by
  apply String.toByteArray_inj.mp
  apply ByteArray.ext
  exact Array.toList_inj.mp h

def renewProtocolVersion : String := "renew-v2"

def domainTag : String := "prometheus-mcp-fleet/tunnel-auth\x00"

def maxFieldBytes : Nat := 65536

/-- An error with the values that its text shows. -/
inductive Err where
  | badSignature (detail : String)
  | fieldTooLarge (bytes : Nat)
  deriving DecidableEq

/-- A field with its length before it. -/
def frame (f : Bytes) : Bytes := putUint32 (UInt32.ofNat f.length) ++ f

/-- `Transcript`. The first field that is too large is the one that the error tells of. -/
def transcript (nonce protocolVersion clusterID : Bytes) (bindings : List Bytes) :
    Except Err Bytes :=
  let fields := [nonce, protocolVersion, clusterID] ++ bindings
  match fields.find? fun f => decide (maxFieldBytes < f.length) with
  | some f => .error (.fieldTooLarge f.length)
  | none => .ok (bytesOf domainTag ++ fields.flatMap frame)

variable {bindings : List Bytes} {clusterID nonce t version : Bytes}

theorem transcript_eq_ok : transcript nonce version clusterID bindings = .ok t ↔
      (∀ f ∈ [nonce, version, clusterID] ++ bindings, f.length ≤ maxFieldBytes) ∧
        t = bytesOf domainTag ++ ([nonce, version, clusterID] ++ bindings).flatMap frame := by
  unfold transcript
  dsimp only
  split
  · rename_i f hf
    have hbig := List.find?_some hf
    have hmem := mem_of_find?_eq_some hf
    simp only [decide_eq_true_eq] at hbig
    simp only [reduceCtorEq, false_iff, not_and]
    intro hall
    have := hall f hmem
    omega
  · rename_i hnone
    rw [List.find?_eq_none] at hnone
    simp only [decide_eq_true_eq, not_lt] at hnone
    simp only [Except.ok.injEq]
    constructor
    · intro h
      exact ⟨hnone, h.symm⟩
    · intro h
      exact h.2.symm

theorem prefixFree_frame : PrefixFree (fun f : Bytes => f.length ≤ maxFieldBytes) frame :=
  (prefixFree_putUint32 (by decide)).framed

theorem frame_ne_nil (f : Bytes) : frame f ≠ [] := by
  simp [frame, putUint32]

/-- A transcript tells its nonce, its version, its cluster ID and its bindings. -/
theorem transcript_inj {nonce' version' clusterID' : Bytes} {bindings' : List Bytes}
    (h : transcript nonce version clusterID bindings = .ok t)
    (h' : transcript nonce' version' clusterID' bindings' = .ok t) :
    nonce = nonce' ∧ version = version' ∧ clusterID = clusterID' ∧ bindings = bindings' := by
  obtain ⟨hsize, ht⟩ := transcript_eq_ok.mp h
  obtain ⟨hsize', ht'⟩ := transcript_eq_ok.mp h'
  rw [ht] at ht'
  have hfields := prefixFree_frame.flatMap_inj frame_ne_nil hsize hsize' (append_cancel_left ht')
  simp only [cons_append, nil_append, List.cons.injEq] at hfields
  exact hfields

/-! ## The check of a signature -/

/-- The primitives. `verifyPKCS1v15` is for SHA-256 digests. -/
structure Crypto where
  sha256 : Bytes → Bytes
  verifyASN1 : (curve : String) → (x y : Nat) → (digest sig : Bytes) → Bool
  verifyPKCS1v15 : (n e : Nat) → (digest sig : Bytes) → Except String Unit

variable (C : Crypto)

def Crypto.checkDigest (digest sig : Bytes) : PublicKey → Except Err Unit
  | .ecdsa curve x y =>
    ensure (C.verifyASN1 curve x y digest sig = true) (.badSignature "")
  | .rsa n e => (C.verifyPKCS1v15 n e digest sig).mapError .badSignature
  | .other type => .error (.badSignature ("unsupported key type " ++ type))

/-- The signature is one of this transcript under this key. -/
def Crypto.Verifies (key : PublicKey) (t sig : Bytes) : Prop :=
  C.checkDigest (C.sha256 t) sig key = .ok ()

def verify (leaf : Option Certificate) (sig nonce : Bytes)
    (protocolVersion clusterID : String) (bindings : List Bytes) : Except Err Unit :=
  match leaf with
  | none => .error (.badSignature "no certificate presented")
  | some leaf => do
    let t ← transcript nonce (bytesOf protocolVersion) (bytesOf clusterID) bindings
    C.checkDigest (C.sha256 t) sig leaf.publicKey

def csrBinding (csrDER : Bytes) : Bytes := C.sha256 csrDER

theorem verify_ok {C : Crypto} {leaf : Certificate} {sig : Bytes} {version clusterID : String}
    (h : verify C (some leaf) sig nonce version clusterID bindings = .ok ()) :
    ∃ t, transcript nonce (bytesOf version) (bytesOf clusterID) bindings = .ok t ∧
      C.Verifies leaf.publicKey t sig :=
  bind_eq_ok.mp h

end prom_fleet.certproof
