-- The encoding of the document: an empty value decodes to an empty document,
-- a document of a later build is refused, and a document that would not fit is
-- not written. JSON itself is a parameter.
import PromFleet.State

namespace prom_fleet.store

/-- `encoding/json` on the document: the bytes of a document and their number,
and the document of some bytes. An absent map decodes to an empty one. -/
structure Json (Blob : Type) where
  len : Blob → Nat
  marshal : State → Blob
  unmarshal : Blob → Except String State

/-- The record as JSON carries it: without the digest in the domain key, which
is tagged to be left out. -/
def KeyRecord.wire (r : KeyRecord) : KeyRecord := { r with key := { r.key with secretHMAC := [] } }

/-- What the source needs of `encoding/json`: the bytes of a document are not
empty, and they decode to the document again, up to the digests that JSON
leaves out. -/
structure Json.Lawful {Blob : Type} (json : Json Blob) : Prop where
  len_pos : ∀ s, 0 < json.len (json.marshal s)
  round_trip : ∀ s, ∃ s', json.unmarshal (json.marshal s) = .ok s' ∧
    s'.schemaVersion = s.schemaVersion ∧ s'.epoch = s.epoch ∧
    s'.revokedCerts = s.revokedCerts ∧
    ∀ kid, (s'.keys.lookup kid).map KeyRecord.wire = (s.keys.lookup kid).map KeyRecord.wire

variable {Blob : Type} (json : Json Blob)

/-- `State.migrateTo`. The table of migrations is empty. -/
def migrateTo (target : Int) (s : State) : Except Err State :=
  let version := if s.schemaVersion = 0 then SchemaVersion else s.schemaVersion
  if version > target then .error (.versionTooNew version target)
  else if version < target then .error (.noMigration version)
  else .ok { s with schemaVersion := version }

def migrate (s : State) : Except Err State := migrateTo SchemaVersion s

/-- `store.Decode`. A missing key of a Go map reads as nil, that is, as empty. -/
def decode (b : Option Blob) : Except Err State :=
  match b with
  | none => .ok newState
  | some b =>
    if json.len b = 0 then .ok newState
    else
      match json.unmarshal b with
      | .error cause => .error (.decodeState cause)
      | .ok s => migrate s

def encode (s : State) : Blob := json.marshal { s with schemaVersion := SchemaVersion }

def encodeWithin (max : Int) (s : State) : Except Err Blob :=
  if max > 0 ∧ (json.len (encode json s) : Int) > max then
    .error (.tooLarge (json.len (encode json s)) max s.keys.keys.card s.revokedCerts.keys.card)
  else .ok (encode json s)

theorem encodeWithin_ok {max : Int} {s : State} {b : Blob}
    (h : encodeWithin json max s = .ok b) : b = encode json s := by
  unfold encodeWithin at h
  split at h
  · cases h
  · cases h
    rfl

/-- What is written reads back with the same epoch, entries and records. -/
theorem decode_encode (hj : json.Lawful) (s : State) :
    ∃ s', decode json (some (encode json s)) = .ok s' ∧ s'.epoch = s.epoch ∧
      s'.revokedCerts = s.revokedCerts ∧
      ∀ kid, (s'.keys.lookup kid).map KeyRecord.wire = (s.keys.lookup kid).map KeyRecord.wire := by
  obtain ⟨s', hs', hv, he, hc, hk⟩ := hj.round_trip { s with schemaVersion := SchemaVersion }
  have hlen : json.len (encode json s) ≠ 0 := by
    have := hj.len_pos { s with schemaVersion := SchemaVersion }
    unfold encode
    omega
  have hv1 : s'.schemaVersion = 1 := hv
  have hmig : migrate s' = .ok s' := by
    cases s' with
    | mk version epoch keys certs =>
      subst hv1
      simp [migrate, migrateTo, SchemaVersion]
  refine ⟨s', ?_, he, hc, hk⟩
  unfold decode
  simp only [if_neg hlen]
  unfold encode
  rw [hs']
  exact hmig

end prom_fleet.store
