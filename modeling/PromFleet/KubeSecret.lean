-- One Kubernetes Secret and the API server that holds it. The server keeps the
-- versions of the Secret, the newest first: a create needs an absent Secret, and
-- an update needs the version that it was made from to be the newest one.
import PromFleet.Identity

namespace prom_fleet.kube

open List

variable {Blob τ : Type}

/-- `kube.Secret`. Resource version 0 is the empty one, which no stored Secret
has. The name is left out: a system has one Secret. -/
structure Secret (Blob : Type) where
  resourceVersion : Nat
  data : StrMap Blob
  labels : StrMap String
  annotations : StrMap String
  deriving DecidableEq

/-- The errors of the client that its callers tell apart. -/
inductive Err where
  | notFound
  | alreadyExists
  | conflict
  | noResourceVersion
  | other
  deriving DecidableEq, Repr

/-- What the network does to a request: it is delivered, it is lost on the way,
or its answer is lost on the way back. -/
inductive Fault where
  | delivered
  | lost
  | dropped
  deriving DecidableEq, Repr

/-- A stored version of the Secret, with a note on who wrote it. -/
structure Version (Blob τ : Type) where
  secret : Secret Blob
  note : τ

/-! ## Requests -/

variable (s : List (Version Blob τ))

/-- The Secret as it stands. -/
def current : Option (Secret Blob) := s.head?.map fun v => v.secret

def getSecret : Except Err (Secret Blob) :=
  match current s with
  | none => .error .notFound
  | some sec => .ok sec

/-- The server gives each version a greater resource version than the last, by
`gap` more than one. -/
def createSecret (gap : Nat) (note : τ) (sec : Secret Blob) (s : List (Version Blob τ)) :
    Except Err (Secret Blob) × List (Version Blob τ) :=
  match current s with
  | some _ => (.error .alreadyExists, s)
  | none =>
    let stored := { sec with resourceVersion := gap + 1 }
    (.ok stored, { secret := stored, note := note } :: s)

def updateSecret (gap : Nat) (note : τ) (sec : Secret Blob) (s : List (Version Blob τ)) :
    Except Err (Secret Blob) × List (Version Blob τ) :=
  if sec.resourceVersion = 0 then (.error .noResourceVersion, s)
  else
    match current s with
    | none => (.error .notFound, s)
    | some cur =>
      if sec.resourceVersion = cur.resourceVersion then
        let stored := { sec with resourceVersion := cur.resourceVersion + gap + 1 }
        (.ok stored, { secret := stored, note := note } :: s)
      else (.error .conflict, s)

/-- A request and its answer on a network with faults. -/
def deliver {α : Type} (f : Fault) (s : List (Version Blob τ))
    (r : Except Err α × List (Version Blob τ)) : Except Err α × List (Version Blob τ) :=
  match f with
  | .delivered => r
  | .lost => (.error .other, s)
  | .dropped => (.error .other, r.2)

/-! ## The versions of a Secret -/

/-- Each version is greater than the ones before it, and none is 0. -/
structure Ordered : Prop where
  pairwise : s.Pairwise fun v w => w.secret.resourceVersion < v.secret.resourceVersion
  pos : ∀ v ∈ s, 0 < v.secret.resourceVersion

theorem ordered_nil : Ordered ([] : List (Version Blob τ)) := ⟨List.Pairwise.nil, by simp⟩

/-- The Secret was stored as this at some time. -/
def Stored (sec : Secret Blob) (s : List (Version Blob τ)) : Prop := ∃ v ∈ s, v.secret = sec

variable {s : List (Version Blob τ)} {sec : Secret Blob}

theorem current_eq_some (h : current s = some sec) : ∃ v rest, s = v :: rest ∧ v.secret = sec := by
  unfold current at h
  cases s with
  | nil => simp at h
  | cons v rest => exact ⟨v, rest, rfl, by simpa using h⟩

theorem current_eq_none (h : current s = none) : s = [] := by
  unfold current at h
  cases s with
  | nil => rfl
  | cons v rest => simp at h

theorem stored_current (h : current s = some sec) : Stored sec s := by
  obtain ⟨v, rest, rfl, hv⟩ := current_eq_some h
  exact ⟨v, mem_cons_self, hv⟩

variable {s' : List (Version Blob τ)}

theorem Stored.mono (h : Stored sec s) (hs : s <:+ s') : Stored sec s' := by
  obtain ⟨v, hv, he⟩ := h
  exact ⟨v, hs.subset hv, he⟩

variable {cur : Secret Blob}

theorem Ordered.le_current (ho : Ordered s) (hs : Stored sec s) (hc : current s = some cur) :
    sec.resourceVersion ≤ cur.resourceVersion := by
  obtain ⟨v, rest, rfl, rfl⟩ := current_eq_some hc
  obtain ⟨w, hw, rfl⟩ := hs
  rcases mem_cons.mp hw with rfl | hw
  · exact le_refl _
  · exact le_of_lt (rel_of_pairwise_cons ho.pairwise hw)

theorem Ordered.eq_current (ho : Ordered s) (hs : Stored sec s) (hc : current s = some cur)
    (hv : sec.resourceVersion = cur.resourceVersion) : sec = cur := by
  obtain ⟨v, rest, rfl, rfl⟩ := current_eq_some hc
  obtain ⟨w, hw, rfl⟩ := hs
  rcases mem_cons.mp hw with rfl | hw
  · rfl
  · have := rel_of_pairwise_cons ho.pairwise hw
    omega

theorem Stored.suffix (h : Stored sec s) : ∃ v older, v :: older <:+ s ∧ v.secret = sec := by
  obtain ⟨v, hv, hsec⟩ := h
  obtain ⟨newer, older, rfl⟩ := append_of_mem hv
  exact ⟨v, older, suffix_append _ _, hsec⟩

variable {v : Version Blob τ}

/-- Of two versions, the one that is not newer is the other one or comes before
it. -/
theorem Ordered.suffix_of_le (ho : Ordered s) {w : Version Blob τ} {vs ws : List (Version Blob τ)}
    (hv : v :: vs <:+ s) (hw : w :: ws <:+ s)
    (hle : v.secret.resourceVersion ≤ w.secret.resourceVersion) : v :: vs <:+ w :: ws := by
  rcases suffix_or_suffix_of_suffix hv hw with h | h
  · exact h
  rcases suffix_cons_iff.mp h with heq | h
  · rw [heq]
  have hlt := (pairwise_cons.mp (ho.pairwise.sublist hv.sublist)).1 w (h.subset mem_cons_self)
  omega

theorem Ordered.push (ho : Ordered s) (hpos : 0 < v.secret.resourceVersion)
    (hv : ∀ cur, current s = some cur → cur.resourceVersion < v.secret.resourceVersion) :
    Ordered (v :: s) := by
  refine ⟨pairwise_cons.mpr ⟨fun w hw => ?_, ho.pairwise⟩, fun w hw => ?_⟩
  · cases s with
    | nil => cases hw
    | cons x rest =>
      have hc : current (x :: rest) = some x.secret := rfl
      have hx := hv x.secret hc
      have hle := ho.le_current ⟨w, hw, rfl⟩ hc
      omega
  · rcases mem_cons.mp hw with rfl | hw
    · exact hpos
    · exact ho.pos w hw

/-! ## What a request does -/

theorem getSecret_ok (h : getSecret s = .ok sec) : current s = some sec := by
  unfold getSecret at h
  split at h
  · cases h
  rename_i hc
  cases h
  exact hc

variable {gap : Nat} {note : τ} {r : Except Err (Secret Blob)}

theorem createSecret_cases (h : createSecret gap note sec s = (r, s')) :
    (s' = s ∧ r = .error .alreadyExists) ∨
      (current s = none ∧ ∃ stored, stored = { sec with resourceVersion := gap + 1 } ∧
        r = .ok stored ∧ s' = { secret := stored, note := note } :: s) := by
  unfold createSecret at h
  split at h
  · cases h
    exact .inl ⟨rfl, rfl⟩
  · rename_i hc
    cases h
    exact .inr ⟨hc, _, rfl, rfl, rfl⟩

/-- An update changes nothing, or it was made from the newest version and
stores the next one. -/
theorem updateSecret_cases (h : updateSecret gap note sec s = (r, s')) :
    (s' = s ∧ ∃ e, r = .error e) ∨
      ∃ cur stored, current s = some cur ∧ sec.resourceVersion = cur.resourceVersion ∧
        stored = { sec with resourceVersion := cur.resourceVersion + gap + 1 } ∧
        r = .ok stored ∧ s' = { secret := stored, note := note } :: s := by
  unfold updateSecret at h
  split at h
  · cases h
    exact .inl ⟨rfl, _, rfl⟩
  split at h
  · cases h
    exact .inl ⟨rfl, _, rfl⟩
  rename_i cur hc
  split at h
  · rename_i hv
    cases h
    exact .inr ⟨cur, _, hc, hv, rfl, rfl, rfl⟩
  · cases h
    exact .inl ⟨rfl, _, rfl⟩

variable {f : Fault} {α : Type} {x : Except Err α} {r : Except Err α × List (Version Blob τ)}

/-- On a network with faults a request does what it does without them, or
nothing, and an answer that is no error is the true one. -/
theorem deliver_cases (h : deliver f s r = (x, s')) :
    (x, s') = r ∨ (x = .error .other ∧ (s' = s ∨ f = .dropped ∧ s' = r.2)) := by
  unfold deliver at h
  split at h
  · exact .inl h.symm
  · cases h
    exact .inr ⟨rfl, .inl rfl⟩
  · cases h
    exact .inr ⟨rfl, .inr ⟨rfl, rfl⟩⟩

/-- What holds before a request and after it is delivered holds after any fault. -/
theorem deliver_keeps {P : List (Version Blob τ) → Prop}
    (hs : P s) (hr : P r.2) (h : deliver f s r = (x, s')) : P s' := by
  rcases deliver_cases h with h | ⟨_, h | ⟨_, h⟩⟩
  · rw [← h] at hr
    exact hr
  · rw [h]
    exact hs
  · rw [h]
    exact hr

end prom_fleet.kube
