-- The horizon that a promotion stores, against the certificates in the field. The horizon comes
-- from the settings at the promotion, and a certificate lives by the settings at its issue: the
-- horizon covers what was issued under settings that give no longer life.
import PromFleet.CARotationTrust
import PromFleet.Revocation

namespace prom_fleet.rotation

open interleave gotime List kube revocation

variable {Cert Key ι : Type} {K : Toolkit Cert Key} {T : Terms}

/-- For how long after its issue a certificate can be renewed. -/
def Config.reach (cfg : Config) : Int := cfg.spokeCertTTL + cfg.renewGrace

/-- A certificate ends within the lifetime of its issue. -/
theorem signed_notAfter_le {τ ttl rootNotAfter : Int} {serialNumber : Nat}
    {cert : Certificate} (h : signed τ ttl rootNotAfter serialNumber = some cert) :
    cert.notAfter ≤ τ + ttl := by
  unfold signed at h
  split at h
  · cases h
  cases h
  simp only [wholeSeconds]
  omega

theorem Link.promoted {v w : Version Bytes Note} (h : Link K T v w) {cfg : Config} {P : Int}
    (hwriter : w.note.writer = .rotator cfg (some P)) :
    T.promoted cfg P ∧ (readCARotation K w.secret).retireAfter =
      (K.parseTime (K.formatTime (P + cfg.retirementHold))).getD 0 := by
  cases h with
  | edit hother _ =>
    rw [hwriter] at hother
    cases hother
  | @rotate cfg' n now p _ hplan hterms _ hrotator hdata =>
    rw [hwriter] at hrotator
    have hfield := read_write hplan.set_nodup hdata
    cases hplan with
    | promote hphase =>
      cases hrotator
      have hretire : field secretKeyRotationRetireAfter w.secret =
          K.formatTime (P + cfg.retirementHold) := hfield _
      refine ⟨hterms P rfl, ?_⟩
      simp only [readCARotation, hretire]
    | _ => cases hrotator

/-- The certificate was signed when the promotion was planned, or before, or before the write
of the promotion came through, if that took less than two polls. -/
def signedByThen (w : Version Bytes Note) (cfg : Config) (P τ : Int) : Prop :=
  τ ≤ P ∨ τ ≤ w.note.committed ∧ w.note.committed + second ≤ P + 2 * cfg.pollInterval

/-- In every run whose promotions have fitting horizons, under whatever settings, the horizon of a
promotion is not before the end of the grace of any certificate that was signed by then, under
settings that reach no farther than those of the promotion. -/
theorem horizon_covers_certificates_of_no_longer_reach [DecidableEq ι] (K : Toolkit Cert Key)
    (hK : K.Lawful) (t : Int) (sec : Secret Bytes) (hrv : 0 < sec.resourceVersion)
    (calls : ι → Request Cert Key) (ls : List (ι × RotEnv))
    (c : Conf (@RotAns Cert) ι (Int × Server) Unit)
    (hmeets : Meets (rotMachine K) (grants K fittingHorizons) (system K t sec calls) ls)
    (hrun : run (rotMachine K) (system K t sec calls) ls = some c) (timeline : Int → Config)
    (w v : Version Bytes Note) (older : Server) (cfg : Config) (P : Int) (root : Cert)
    (hw : w :: v :: older <:+ c.shared.2) (hpromotion : Promotion K w v cfg P root)
    (hpoll : second ≤ cfg.pollInterval) (τ : Int) (serialNumber : Nat)
    (cert : Certificate)
    (hsigned : signed τ (timeline τ).spokeCertTTL (K.notAfter root) serialNumber = some cert)
    (hthen : signedByThen w cfg P τ) (hreach : (timeline τ).reach ≤ cfg.reach) :
    cert.notAfter + (timeline τ).renewGrace ≤ (readCARotation K w.secret).retireAfter := by
  have hlink := (run_good hrv hmeets hrun).history.link hw
  obtain ⟨hfits, hretire⟩ := hlink.promoted hpromotion.writer
  have hend := signed_notAfter_le hsigned
  have hhorizon := lt_horizon_of_fits hK hfits
  have hpos : 0 < second := by decide
  unfold Config.reach at hreach
  rcases hthen with hthen | ⟨hthen, hprompt⟩
  · omega
  · omega

/-- The promotion of a run under one setting covers a certificate that was signed just then. -/
theorem horizon_covers_a_certificate_of_the_promotion :
    ∃ c w p v older cert, run (rotMachine smallKit)
        (system smallKit noon ordered (threePolls defaults)) fullRotation = some c ∧
      c.shared.2 = w :: p :: v :: older ∧
      Promotion smallKit p v defaults (noon + 1209600 * second) 100 ∧
      signed (noon + 1209600 * second) defaults.spokeCertTTL year10000 7 = some cert ∧
      cert.notAfter + defaults.renewGrace ≤ (readCARotation smallKit p.secret).retireAfter := by
  refine ⟨_, _, _, _, _, _, rfl, rfl, ⟨rfl, rfl, rfl, rfl⟩, rfl, ?_⟩
  exact horizon_covers_certificates_of_no_longer_reach smallKit smallKit_lawful noon ordered
    (by decide) (threePolls defaults) fullRotation _ (by decide) rfl (fun _ => defaults) _ _ _
    defaults _ 100 (suffix_cons _ _) ⟨rfl, rfl, rfl, rfl⟩ (by decide)
    (noon + 1209600 * second) 7 _ rfl (.inl (le_refl _)) (le_refl _)

/-- The defaults of the hub with a lifetime of one day. -/
def shortened : Config :=
  { defaults with
    spokeCertTTL := 86400 * second
    ttl_pos := by decide
    ttl_le := by decide }

/-- The lifetime is shortened an hour after noon. -/
def shortenedLater (τ : Int) : Config :=
  if τ < noon + 3600 * second then defaults else shortened

def pollsAround : Fin 3 → Request Nat Nat
  | 0 => .poll (replica defaults noon)
  | 1 => .poll (replica shortened (noon + 3600 * second))
  | 2 => .poll (replica shortened (noon + 3600 * second))

/-- A poll that publishes before the change, and one that promotes a day after noon. -/
def earlyPromotion : List (Fin 3 × RotEnv) :=
  after 0 (numbered [0, 0, 0, 0]) ++ after 86400 (numbered [1, 1, 1, 1])

theorem pollsAround_follow (l : Fin 3 × RotEnv) (hl : l ∈ earlyPromotion)
    (r : CaRotator Nat Nat) (hr : pollsAround l.1 = .poll r) : r.cfg = shortenedLater l.2.now := by
  have hearly : shortenedLater (noon + 0 * second) = defaults := if_pos (by decide)
  have hlate : shortenedLater (noon + 86400 * second) = shortened := if_neg (by decide)
  rcases mem_append.mp hl with hl | hl
  · obtain ⟨i, hi, rfl⟩ := mem_map.mp hl
    obtain rfl : i = 0 := by simpa [numbered] using hi
    cases hr
    exact hearly.symm
  · obtain ⟨i, hi, rfl⟩ := mem_map.mp hl
    obtain rfl : i = 1 := by simpa [numbered] using hi
    cases hr
    exact hlate.symm

/-- The polls run under the settings of their time, and the horizon of the promotion is twelve
days before the end of the grace of a certificate that was signed at noon. -/
theorem shortened_lifetime_leaves_a_certificate_uncovered :
    ∃ c p v older cert, run (rotMachine smallKit) (system smallKit noon ordered pollsAround)
        earlyPromotion = some c ∧
      (∀ l ∈ earlyPromotion, ∀ r, pollsAround l.1 = .poll r → r.cfg = shortenedLater l.2.now) ∧
      c.shared.2 = p :: v :: older ∧
      Promotion smallKit p v shortened (noon + 86400 * second) 100 ∧
      p.note.committed = noon + 86400 * second ∧
      horizonFits shortened (noon + 86400 * second) ∧
      signed noon (shortenedLater noon).spokeCertTTL year10000 7 = some cert ∧
      (readCARotation smallKit p.secret).retireAfter + 1036200 * second =
        cert.notAfter + (shortenedLater noon).renewGrace := by
  refine ⟨_, _, _, _, _, rfl, pollsAround_follow, rfl, ⟨rfl, rfl, rfl, rfl⟩, rfl, ?_, rfl, ?_⟩
  · exact ⟨by decide, by decide, by decide⟩
  · decide

end prom_fleet.rotation
