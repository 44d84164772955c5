-- The challenge of a renewal: any replica can check what another one has issued, because the
-- challenge carries its expiry and a tag under the pepper that they share.
import PromFleet.Possession

namespace prom_fleet.possession.hubapi

open certproof gotime

/-- `binary.BigEndian.PutUint64`. -/
def putUint64 (v : Nat) : Bytes :=
  [v / 256 ^ 7, v / 256 ^ 6, v / 256 ^ 5, v / 256 ^ 4, v / 256 ^ 3, v / 256 ^ 2, v / 256, v].map
    UInt8.ofNat

theorem uint64_putUint64 {v : Nat} (hv : v < 2 ^ 64) : uint64 (putUint64 v) = v := by
  simp only [uint64, putUint64, List.map_cons, List.map_nil, List.foldl_cons, List.foldl_nil,
    UInt8.toNat_ofNat']
  omega

def renewChallengeTTL : Int := 60 * second

/-- The part of a challenge that the tag covers. -/
def renewNonceBody (random : Vector UInt8 16) (expiresAt : Int) : Bytes :=
  random.toList ++ putUint64 (unix expiresAt % 2 ^ 64).toNat

def renewNonceMACInput (body : Bytes) : Bytes := bytesOf renewNonceDomain ++ body

/-- `issueRenewNonce` with the bytes that it draws. -/
def issueRenewNonce (sum : Bytes → Bytes) (random : Vector UInt8 16) (now : Int) : Bytes × Int :=
  let expiresAt := truncSecond (timeAdd now renewChallengeTTL)
  let body := renewNonceBody random expiresAt
  (body ++ sum (renewNonceMACInput body), expiresAt)

/-- The replicas, whose hashers have one pepper and give tags of 32 bytes. -/
structure Fleet (ρ : Type) where
  sum : ρ → Bytes → Bytes
  shared : ∀ r r', sum r = sum r'
  size : ∀ r input, (sum r input).length = 32

/-- A use of the pepper that gives a tag away. -/
inductive Use (ρ : Type) where
  | challenge (r : ρ) (random : Vector UInt8 16) (now : Int)
  | other (r : ρ) (input : Bytes)

variable {ρ : Type}

/-- What is tagged. -/
def Use.input : Use ρ → Bytes
  | .challenge _ random now =>
    renewNonceMACInput (renewNonceBody random (truncSecond (timeAdd now renewChallengeTTL)))
  | .other _ input => input

/-- The clocks are past 1970, and nothing else that is tagged looks like a challenge. -/
def Use.Proper : Use ρ → Prop
  | .challenge _ _ now => unixEpoch ≤ now
  | .other _ input => ¬ bytesOf renewNonceDomain <+: input

/-- After these uses, the tag verifies for the input only if the input has been tagged. -/
def Fleet.Unforged (F : Fleet ρ) (uses : List (Use ρ)) (tag input : Bytes) : Prop :=
  ∀ r, tag = F.sum r input → ∃ x ∈ uses, x.input = input

variable {F : Fleet ρ} {t u : Int} {nonce : Bytes} {random : Vector UInt8 16} {r r' : ρ}

theorem length_renewNonceBody : (renewNonceBody random t).length = 24 := by
  simp [renewNonceBody, putUint64]

theorem expiry_spec (ht : unixEpoch ≤ t) : let e := truncSecond (timeAdd t renewChallengeTTL)
    e ≤ t + renewChallengeTTL ∧ ∃ s : Int, 0 ≤ s ∧ s + 62135596800 ≤ maxDuration ∧
      e = unixEpoch + s * second := by
  unfold unixEpoch second at ht
  unfold timeAdd renewChallengeTTL truncSecond unixEpoch maxDuration minDuration second
  dsimp only
  split
  · exact ⟨by omega, 9223372036854775807 - 62135596800, by omega⟩
  split
  · omega
  · exact ⟨by omega, (t + 60 * 1000000000) / 1000000000 - 62135596800, by omega⟩

/-- What is read from the body of a challenge is its expiry. -/
theorem timeUnix_renewNonceBody (random : Vector UInt8 16) {s : Int} (hs : 0 ≤ s)
    (hmax : s + 62135596800 ≤ maxDuration) :
    timeUnix (wrap64 (uint64 ((renewNonceBody random (unixEpoch + s * second)).drop 16))) 0 =
      unixEpoch + s * second := by
  have hunix : unix (unixEpoch + s * second) = s := by
    unfold unix
    rw [show (unixEpoch + s * second - unixEpoch) / second = s by unfold second; omega]
    exact wrap64_of_mem (by unfold minDuration; omega) (by omega)
  have hdrop : (renewNonceBody random (unixEpoch + s * second)).drop 16 = putUint64 s.toNat := by
    have hmod : s % 2 ^ 64 = s := Int.emod_eq_of_lt hs (by unfold maxDuration at hmax; omega)
    rw [renewNonceBody, hunix, hmod]
    exact List.drop_left' Vector.length_toList
  unfold maxDuration at hmax
  rw [hdrop, uint64_putUint64 (by omega)]
  unfold timeUnix wrap64 unixEpoch second
  omega

theorem verifyRenewNonce_issueRenewNonce (F : Fleet ρ) (ht : unixEpoch ≤ t) :
    verifyRenewNonce (F.sum r') (issueRenewNonce (F.sum r) random t).1 u = true ↔
      u ≤ truncSecond (timeAdd t renewChallengeTTL) := by
  obtain ⟨-, s, hs, hmax, he⟩ := expiry_spec ht
  have hbody : (renewNonceBody random (unixEpoch + s * second)).length = 24 := length_renewNonceBody
  have hexpiry := timeUnix_renewNonceBody random hs hmax
  unfold verifyRenewNonce issueRenewNonce
  simp only [he, List.take_left' hbody, List.drop_left' hbody, List.length_append, hbody, F.size,
    F.shared r' r, renewNonceMACInput, hexpiry, decide_true, Bool.true_and, decide_eq_true_eq]

/-- A challenge that a replica has issued is accepted by every replica until its second is
over. What is accepted has been issued, and not longer ago than the time to live. -/
theorem renewal_challenges_are_fleet_wide_and_short_lived (F : Fleet ρ) (uses : List (Use ρ))
    (huses : ∀ x ∈ uses, x.Proper) : (∀ r r' random t u, unixEpoch ≤ t →
      (verifyRenewNonce (F.sum r') (issueRenewNonce (F.sum r) random t).1 u = true ↔
        u ≤ truncSecond (timeAdd t renewChallengeTTL))) ∧
    ∀ r nonce u, F.Unforged uses (nonce.drop 24) (renewNonceMACInput (nonce.take 24)) →
      verifyRenewNonce (F.sum r) nonce u = true →
      ∃ r' random t, .challenge r' random t ∈ uses ∧
        nonce = (issueRenewNonce (F.sum r') random t).1 ∧ u - t ≤ renewChallengeTTL := by
  refine ⟨fun r r' random t u => verifyRenewNonce_issueRenewNonce F, fun r nonce u hF hok => ?_⟩
  have htag : nonce.drop 24 = F.sum r (renewNonceMACInput (nonce.take 24)) := by
    simp only [verifyRenewNonce, Bool.and_eq_true, decide_eq_true_eq] at hok
    exact hok.1.2
  obtain ⟨x, hx, hinput⟩ := hF r htag
  cases x with
  | other r' input => exact absurd ⟨_, hinput.symm⟩ (huses _ hx)
  | challenge r' random t =>
    have ht : unixEpoch ≤ t := huses _ hx
    have hnonce : nonce = (issueRenewNonce (F.sum r') random t).1 := by
      have hbody := List.append_cancel_left hinput
      rw [← List.take_append_drop 24 nonce, htag, ← hbody, F.shared r r']
      rfl
    refine ⟨r', random, t, hx, hnonce, ?_⟩
    have hexpiry := (verifyRenewNonce_issueRenewNonce F ht).mp (hnonce ▸ hok)
    have hlate := (expiry_spec ht).1
    omega

/-- Two replicas whose tags are all the same. -/
def twoReplicas : Fleet Bool := ⟨fun _ _ => List.replicate 32 0, fun _ _ => rfl, fun _ _ => rfl⟩

/-- One replica issues a challenge half a second after the start of 1970, and the other one
accepts it a minute after the start. -/
theorem a_challenge_is_accepted_by_the_other_replica :
    let nonce := (issueRenewNonce (twoReplicas.sum true) (Vector.replicate 16 0)
      (unixEpoch + 500000000)).1
    verifyRenewNonce (twoReplicas.sum false) nonce (unixEpoch + 60 * second) = true ∧
      ∃ r random t, nonce = (issueRenewNonce (twoReplicas.sum r) random t).1 ∧
        unixEpoch + 60 * second - t ≤ renewChallengeTTL := by
  have h := renewal_challenges_are_fleet_wide_and_short_lived twoReplicas
    [.challenge true (Vector.replicate 16 0) (unixEpoch + 500000000)]
    (by simp [Use.Proper, unixEpoch])
  have hok := (h.1 true false (Vector.replicate 16 0) (unixEpoch + 500000000)
    (unixEpoch + 60 * second) (by decide)).mpr (by decide)
  obtain ⟨r, random, t, -, hnonce, hlate⟩ := h.2 false _ _
    (fun _ _ => ⟨_, List.mem_cons_self, congrArg renewNonceMACInput
      (List.take_left' length_renewNonceBody).symm⟩) hok
  exact ⟨hok, r, random, t, hnonce, hlate⟩

end prom_fleet.possession.hubapi
